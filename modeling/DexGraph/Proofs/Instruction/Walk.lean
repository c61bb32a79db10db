import DexGraph.Instruction.Walk
import DexGraph.Proofs.Codec.Concat

/-!
# What a walk passes

Instructions run along a body if each of them is decoded where the one before it ends. The walk
through a body goes along it to the end or to a failure (`Walk.passes_ofUnits`), and there is no
other way to do so. Of all the ways to start it takes the longest: `Walk.longest_iff` says that its
instructions are those of the longest prefix that can be decoded, and that there are no others.
-/

namespace DexGraph

namespace Instruction

variable {body : Array UInt16} {pc : Nat} {i : Instruction}

theorem pos_of_payloadUnits? {units : Nat} (h : payloadUnits? body pc = .ok (some units)) :
    0 < units := by
  unfold payloadUnits? at h
  obtain ⟨first, -, h⟩ := Except.bind_eq_ok_iff.mp h
  split at h
  · obtain ⟨size, -, h⟩ := Except.bind_eq_ok_iff.mp h
    cases h
    omega
  split at h
  · obtain ⟨size, -, h⟩ := Except.bind_eq_ok_iff.mp h
    cases h
    omega
  split at h
  · obtain ⟨width, -, h⟩ := Except.bind_eq_ok_iff.mp h
    obtain ⟨size, -, h⟩ := Except.bind_eq_ok_iff.mp h
    cases h
    omega
  · cases h

/-- A decoded instruction takes a unit at least and lies inside the body. -/
theorem units_of_decodeAt (h : decodeAt body pc = .ok i) :
    0 < i.units ∧ pc + i.units ≤ body.size := by
  unfold decodeAt at h
  obtain ⟨first, -, h⟩ := Except.bind_eq_ok_iff.mp h
  obtain ⟨payload, hpayload, h⟩ := Except.bind_eq_ok_iff.mp h
  cases payload with
  | some units =>
    have hpos := pos_of_payloadUnits? hpayload
    dsimp only at h
    split at h
    · cases h
    · cases h
      exact ⟨hpos, by simp only; omega⟩
  | none =>
    dsimp only at h
    split at h
    · cases h
    · obtain ⟨operands, -, h⟩ := Except.bind_eq_ok_iff.mp h
      cases h
      exact ⟨InstructionFormat.units_pos _, by simp only; omega⟩

end Instruction

namespace Walk

open Instruction (decodeAt units_of_decodeAt)

variable {body : Array UInt16} {pc stop stop' : Nat} {instructions instructions' : List Instruction}

/-- The instructions follow each other in a body without gaps, from one position to another. -/
inductive Along (body : Array UInt16) : Nat → List Instruction → Nat → Prop
  | done (pc : Nat) : Along body pc [] pc
  | step {pc stop : Nat} {i : Instruction} {rest : List Instruction}
      (first : decodeAt body pc = .ok i) (along : Along body (pc + i.units) rest stop) :
      Along body pc (i :: rest) stop

/-- The instructions are those of the longest prefix of a body that can be decoded. -/
def Longest (body : Array UInt16) (instructions : List Instruction) : Prop :=
  ∃ stop, Along body 0 instructions stop ∧
    ∀ instructions' stop', Along body 0 instructions' stop' → stop' ≤ stop

theorem Along.le (h : Along body pc instructions stop) : pc ≤ stop := by
  induction h with
  | done pc => exact Nat.le_refl pc
  | step first along ih =>
    have := (units_of_decodeAt first).1
    omega

/-- Where the next instruction cannot be decoded every other way to go along ends sooner, and one
that ends there is the same. -/
theorem Along.unique (h : Along body pc instructions stop)
    (hend : ∀ i, decodeAt body stop ≠ .ok i) (h' : Along body pc instructions' stop') :
    stop' ≤ stop ∧ (stop' = stop → instructions' = instructions) := by
  induction h generalizing instructions' with
  | done pc =>
    cases h' with
    | done => exact ⟨Nat.le_refl _, fun _ => rfl⟩
    | step first along => exact absurd first (hend _)
  | step first along ih =>
    cases h' with
    | done =>
      have hpos := (units_of_decodeAt first).1
      have hle := along.le
      exact ⟨by omega, fun hstop => by omega⟩
    | step first' along' =>
      cases first.symm.trans first'
      obtain ⟨hle, hsame⟩ := ih hend along'
      exact ⟨hle, fun hstop => congrArg _ (hsame hstop)⟩

/-! ## Where a walk stops -/

/-- A walk stops at the end of the body, or fails as decoding does where it stops. -/
def Stops (body : Array UInt16) (stop : Nat) (failure : Option Error) : Prop :=
  failure = none ∧ stop = body.size ∨
    ∃ e, failure = some e ∧ stop < body.size ∧ decodeAt body stop = .error e

theorem Stops.decodeAt_ne_ok {failure : Option Error} (h : Stops body stop failure)
    (i : Instruction) : decodeAt body stop ≠ .ok i := by
  intro hi
  rcases h with ⟨-, rfl⟩ | ⟨e, -, -, herror⟩
  · have := units_of_decodeAt hi
    omega
  · cases herror.symm.trans hi

theorem Stops.unique {failure failure' : Option Error} (h : Stops body stop failure)
    (h' : Stops body stop failure') : failure = failure' := by
  rcases h with ⟨rfl, hstop⟩ | ⟨e, rfl, hlt, herror⟩ <;>
    rcases h' with ⟨rfl, hstop'⟩ | ⟨e', rfl, hlt', herror'⟩
  · rfl
  · omega
  · omega
  · cases herror.symm.trans herror'
    rfl

/-- The walk goes along the body from a position to where it stops. -/
def Passes (body : Array UInt16) (pc : Nat) (walk : Walk) : Prop :=
  ∃ stop, Along body pc walk.instructions stop ∧ Stops body stop walk.failure

/-- A walk with enough steps does not stop too early. -/
theorem passes_fromPosition (steps : Nat) (hpc : pc ≤ body.size)
    (hsteps : body.size ≤ pc + steps) : Passes body pc (fromPosition body steps pc) := by
  induction steps generalizing pc with
  | zero => exact ⟨pc, .done pc, .inl ⟨rfl, by omega⟩⟩
  | succ steps ih =>
    rw [fromPosition]
    split
    case isFalse hend => exact ⟨pc, .done pc, .inl ⟨rfl, by omega⟩⟩
    rename_i hlt
    cases hi : decodeAt body pc with
    | error e => exact ⟨pc, .done pc, .inr ⟨e, rfl, hlt, hi⟩⟩
    | ok i =>
      obtain ⟨hpos, hfit⟩ := units_of_decodeAt hi
      obtain ⟨stop, halong, hstops⟩ := ih hfit (by omega)
      exact ⟨stop, .step hi halong, hstops⟩

theorem passes_ofUnits (body : Array UInt16) : Passes body 0 (ofUnits body) :=
  passes_fromPosition _ (Nat.zero_le _) (Nat.le_add_left ..)

/-- There is one way to walk. -/
theorem Passes.unique {walk walk' : Walk} (h : Passes body pc walk) (h' : Passes body pc walk') :
    walk = walk' := by
  obtain ⟨stop, halong, hstops⟩ := h
  obtain ⟨stop', halong', hstops'⟩ := h'
  obtain ⟨hle, hsame⟩ := halong.unique hstops.decodeAt_ne_ok halong'
  have hge := (halong'.unique hstops'.decodeAt_ne_ok halong).1
  obtain rfl : stop' = stop := Nat.le_antisymm hle hge
  obtain ⟨instructions, failure⟩ := walk
  obtain ⟨instructions', failure'⟩ := walk'
  rw [Walk.mk.injEq]
  exact ⟨(hsame rfl).symm, hstops.unique hstops'⟩

/-- The walk passes the instructions of the longest prefix that can be decoded. -/
theorem longest_iff : Longest body instructions ↔ instructions = (ofUnits body).instructions := by
  obtain ⟨stop, halong, hstops⟩ := passes_ofUnits body
  constructor
  · rintro ⟨stop', halong', hlongest⟩
    obtain ⟨hle, hsame⟩ := halong.unique hstops.decodeAt_ne_ok halong'
    exact hsame (Nat.le_antisymm hle (hlongest _ _ halong))
  · rintro rfl
    exact ⟨stop, halong, fun _ _ halong' => (halong.unique hstops.decodeAt_ne_ok halong').1⟩

end Walk

end DexGraph
