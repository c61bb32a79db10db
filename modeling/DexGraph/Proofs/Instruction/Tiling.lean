import DexGraph.Proofs.Instruction.Walk

/-!
# A walk tiles the body

What starts at a position of a body is known from its head: an instruction from its first unit, a
payload from up to four units. `Instruction.decodeAt_eq` says of decoding that it fails if the head
or the whole does not fit, and otherwise looks at nothing behind the end of what it decodes. So the
instructions of a walk follow each other without gaps up to the end of the body or up to the first
one that does not fit, and the walks through two bodies one behind the other are put together from
the walks through each of them (`Walk.ofUnits_tiles`).
-/

namespace DexGraph

/-- The last unit of an index. -/
def OperandPlace.last : OperandPlace → Nat
  | half unit => unit
  | full unit => unit + 1

/-- The indices among the operands of an instruction lie in the units that its format gives it. -/
theorem last_lt_units (opcode : UInt8) :
    ∀ x ∈ operandKinds opcode, x.2.last < (InstructionFormat.ofOpcode opcode).units := by
  have h : ∀ b : BitVec 8, ∀ x ∈ operandKinds ⟨b⟩,
      x.2.last < (InstructionFormat.ofOpcode ⟨b⟩).units := by
    decide +kernel
  exact h opcode.toBitVec

namespace Instruction

variable {body body' : Array UInt16} {pc pc' : Nat} {i : Instruction}

/-! ## The head of an instruction -/

/-- The unit some places ahead of a position; behind the end of the body there are zeros. -/
def ahead (body : Array UInt16) (pc k : Nat) : UInt16 :=
  body[pc + k]?.getD 0

/-- The 32-bit number some places ahead of a position, the low unit first. -/
def wordAhead (body : Array UInt16) (pc k : Nat) : UInt32 :=
  (ahead body pc k).toUInt32 ||| ((ahead body pc (k + 1)).toUInt32 <<< 16)

/-- Whether a payload starts with this unit. -/
def opensPayload (first : UInt16) : Bool :=
  first == 0x0100 || first == 0x0200 || first == 0x0300

/-- The number of units from which the width of what starts at a position is known: a payload says
behind its first unit how many entries it has, and an array also how wide they are. -/
def headUnits (body : Array UInt16) (pc : Nat) : Nat :=
  if ahead body pc 0 == 0x0300 then 4 else if opensPayload (ahead body pc 0) then 2 else 1

/-- The number of units of what starts at a position, if its head lies in the body. -/
def widthAt (body : Array UInt16) (pc : Nat) : Nat :=
  if ahead body pc 0 == 0x0100 then 4 + (ahead body pc 1).toNat * 2
  else if ahead body pc 0 == 0x0200 then 2 + (ahead body pc 1).toNat * 4
  else if ahead body pc 0 == 0x0300 then
    4 + ((wordAhead body pc 2).toNat * (ahead body pc 1).toNat + 1) / 2
  else (InstructionFormat.ofOpcode (ahead body pc 0).toUInt8).units

/-- The index at a place of what starts at a position. -/
def indexAhead (body : Array UInt16) (pc : Nat) : OperandPlace → UInt32
  | .half unit => (ahead body pc unit).toUInt32
  | .full unit => wordAhead body pc unit

/-- What starts at a position, if all of it lies in the body. -/
def front (body : Array UInt16) (pc : Nat) : Instruction where
  pc := pc
  opcode := (ahead body pc 0).toUInt8
  format := if opensPayload (ahead body pc 0) then none
    else some (InstructionFormat.ofOpcode (ahead body pc 0).toUInt8)
  units := widthAt body pc
  operands := (operandKinds (ahead body pc 0).toUInt8).map fun x => ⟨x.1, indexAhead body pc x.2⟩

theorem headUnits_pos (body : Array UInt16) (pc : Nat) : 0 < headUnits body pc := by
  unfold headUnits
  split_ifs <;> decide

theorem headUnits_le_widthAt (body : Array UInt16) (pc : Nat) :
    headUnits body pc ≤ widthAt body pc := by
  unfold headUnits widthAt opensPayload
  have hpos := InstructionFormat.units_pos (InstructionFormat.ofOpcode (ahead body pc 0).toUInt8)
  by_cases h₁ : ahead body pc 0 = 0x0100
  · simp [h₁]
    omega
  by_cases h₂ : ahead body pc 0 = 0x0200
  · simp [h₂]
  by_cases h₃ : ahead body pc 0 = 0x0300
  · simp [h₃]
  · simp [h₁, h₂, h₃]
    omega

/-! ## Decoding by the head -/

theorem unitAt_add (body : Array UInt16) (pc k : Nat) : unitAt body (pc + k) =
    if pc + k < body.size then .ok (ahead body pc k) else .error .outOfBounds := by
  unfold unitAt ahead
  split
  · rename_i u hu
    rw [if_pos (Array.getElem?_eq_some_iff.mp hu).1, hu]
    rfl
  · rename_i hu
    rw [if_neg (Nat.not_lt.mpr (Array.getElem?_eq_none_iff.mp hu))]

theorem wordAt_add (body : Array UInt16) (pc k : Nat) : wordAt body (pc + k) =
    if pc + (k + 1) < body.size then .ok (wordAhead body pc k) else .error .outOfBounds := by
  unfold wordAt
  rw [unitAt_add, Nat.add_assoc, unitAt_add]
  by_cases h : pc + (k + 1) < body.size
  · rw [if_pos h, if_pos (by omega), if_pos h]
    rfl
  · rw [if_neg h, if_neg h]
    split <;> rfl

/-- The head says whether there is a payload, and how wide it is. -/
theorem payloadUnits?_eq (body : Array UInt16) (pc : Nat) : payloadUnits? body pc =
    if pc + headUnits body pc ≤ body.size then
      .ok (if opensPayload (ahead body pc 0) then some (widthAt body pc) else none)
    else .error .outOfBounds := by
  have hpos := headUnits_pos body pc
  have hfirst := unitAt_add body pc 0
  rw [Nat.add_zero] at hfirst
  by_cases hpc : pc < body.size
  case neg =>
    rw [payloadUnits?, hfirst, if_neg hpc, if_neg (by omega)]
    rfl
  rw [payloadUnits?, hfirst, if_pos hpc]
  change (if ahead body pc 0 == 0x0100 then _ else _) = _
  simp only [unitAt_add, wordAt_add, headUnits, widthAt, opensPayload]
  by_cases hpacked : ahead body pc 0 = 0x0100
  · by_cases hfit : pc + 2 ≤ body.size
    · simp [hpacked, hfit, show pc + 1 < body.size from hfit]
    · simp [hpacked, hfit, show ¬ pc + 1 < body.size from hfit]
  by_cases hsparse : ahead body pc 0 = 0x0200
  · by_cases hfit : pc + 2 ≤ body.size
    · simp [hsparse, hfit, show pc + 1 < body.size from hfit]
    · simp [hsparse, hfit, show ¬ pc + 1 < body.size from hfit]
  by_cases harray : ahead body pc 0 = 0x0300
  · by_cases hfit : pc + 4 ≤ body.size
    · simp [harray, hfit, show pc + 1 < body.size by omega, show pc + 3 < body.size from hfit]
      rfl
    · by_cases hwidth : pc + 1 < body.size
      · simp [harray, hfit, hwidth, show ¬ pc + 3 < body.size from hfit]
        rfl
      · simp [harray, hfit, hwidth]
        rfl
  · simp [hpacked, hsparse, harray, show pc + 1 ≤ body.size from hpc]
    rfl

/-- The operands of an instruction all of which lies in the body. -/
theorem operandsAt_eq {opcode : UInt8}
    (hfit : pc + (InstructionFormat.ofOpcode opcode).units ≤ body.size) :
    operandsAt body pc opcode =
      .ok ((operandKinds opcode).map fun x => ⟨x.1, indexAhead body pc x.2⟩) := by
  have hindex : ∀ x ∈ operandKinds opcode, indexAt body pc x.2 = .ok (indexAhead body pc x.2) := by
    rintro ⟨kind, place⟩ hx
    have hlast := last_lt_units opcode _ hx
    cases place with
    | half unit =>
      simp only [OperandPlace.last] at hlast
      rw [indexAt, unitAt_add, if_pos (by omega)]
      rfl
    | full unit =>
      simp only [OperandPlace.last] at hlast
      rw [indexAt, wordAt_add, if_pos (by omega)]
      rfl
  rw [operandsAt, Except.mapM_eq_ok_iff, List.forall₂_map_right_iff, List.forall₂_same]
  rintro ⟨kind, place⟩ hx
  dsimp only
  rw [hindex _ hx]
  rfl

/-- A payload opens like an instruction without operands. -/
theorem toUInt8_of_opensPayload {first : UInt16} (h : opensPayload first = true) :
    first.toUInt8 = 0 := by
  simp only [opensPayload, Bool.or_eq_true, beq_iff_eq] at h
  rcases h with (rfl | rfl) | rfl <;> rfl

/-- What starts at a position is decoded if all of it lies in the body. -/
theorem decodeAt_eq (body : Array UInt16) (pc : Nat) : decodeAt body pc =
    if pc + widthAt body pc ≤ body.size then .ok (front body pc) else .error .outOfBounds := by
  have hpos := headUnits_pos body pc
  have hle := headUnits_le_widthAt body pc
  have hfirst := unitAt_add body pc 0
  rw [Nat.add_zero] at hfirst
  rw [decodeAt, hfirst, payloadUnits?_eq]
  by_cases hhead : pc + headUnits body pc ≤ body.size
  case neg =>
    rw [if_neg hhead, if_neg (by omega : ¬ pc + widthAt body pc ≤ body.size)]
    split <;> rfl
  rw [if_pos (by omega : pc < body.size), if_pos hhead]
  cases hopens : opensPayload (ahead body pc 0) with
  | true =>
    have hopcode := toUInt8_of_opensPayload hopens
    have hfront : front body pc = ⟨pc, (ahead body pc 0).toUInt8, none, widthAt body pc, []⟩ := by
      rw [front, hopens, hopcode]
      rfl
    rw [hfront]
    by_cases hfit : pc + widthAt body pc ≤ body.size
    · rw [if_pos hfit]
      exact if_neg (by omega)
    · rw [if_neg hfit]
      exact if_pos (by omega)
  | false =>
    have hwidth : widthAt body pc =
        (InstructionFormat.ofOpcode (ahead body pc 0).toUInt8).units := by
      simp only [opensPayload, Bool.or_eq_false_iff] at hopens
      simp [widthAt, hopens]
    have hfront : front body pc = ⟨pc, (ahead body pc 0).toUInt8,
        some (InstructionFormat.ofOpcode (ahead body pc 0).toUInt8), widthAt body pc,
        (operandKinds (ahead body pc 0).toUInt8).map fun x => ⟨x.1, indexAhead body pc x.2⟩⟩ := by
      rw [front, hopens]
      rfl
    rw [hfront, hwidth]
    by_cases hfit : pc + (InstructionFormat.ofOpcode (ahead body pc 0).toUInt8).units ≤ body.size
    · rw [if_pos hfit]
      refine (if_neg (by omega)).trans ?_
      rw [operandsAt_eq hfit]
      rfl
    · rw [if_neg hfit]
      exact if_pos (by omega)

theorem decodeAt_eq_ok_iff :
    decodeAt body pc = .ok i ↔ pc + widthAt body pc ≤ body.size ∧ i = front body pc := by
  rw [decodeAt_eq]
  split <;> simp_all [eq_comm]

/-- What starts at a position is not decoded exactly if there is no unit, or its head or all of it
goes past the end. -/
theorem decodeAt_eq_error_iff {e : Error} : decodeAt body pc = .error e ↔
    e = .outOfBounds ∧ (body.size ≤ pc ∨ body.size < pc + headUnits body pc ∨
      body.size < pc + widthAt body pc) := by
  have hpos := headUnits_pos body pc
  have hle := headUnits_le_widthAt body pc
  rw [decodeAt_eq]
  split
  · rename_i hfit
    simp only [reduceCtorEq, false_iff]
    omega
  · rename_i hfit
    rw [Except.error.injEq, eq_comm]
    refine ⟨fun he => ⟨he, by omega⟩, And.left⟩

/-! ## Decoding elsewhere -/

/-- The same instruction further on. -/
def shift (distance : Nat) (i : Instruction) : Instruction :=
  { i with pc := distance + i.pc }

/-- The width is known from the head. -/
theorem widthAt_congr (h : ∀ k < headUnits body pc, ahead body' pc' k = ahead body pc k) :
    widthAt body' pc' = widthAt body pc := by
  have hfirst := h 0 (headUnits_pos body pc)
  unfold headUnits at h
  unfold widthAt
  rw [hfirst]
  by_cases harray : ahead body pc 0 = 0x0300
  · simp only [harray, beq_self_eq_true, if_true] at h
    rw [wordAhead, wordAhead, h 1 (by decide), h 2 (by decide), h 3 (by decide)]
  by_cases htable : ahead body pc 0 = 0x0100 ∨ ahead body pc 0 = 0x0200
  · have hopens : opensPayload (ahead body pc 0) = true := by
      rcases htable with h | h <;> rw [h] <;> rfl
    simp only [harray, hopens, beq_iff_eq, if_false, if_true] at h
    rw [h 1 (by decide)]
    rcases htable with h | h <;> simp [h]
  · rw [not_or] at htable
    simp [htable, harray]

theorem indexAhead_congr {n : Nat} (h : ∀ k < n, ahead body' pc' k = ahead body pc k)
    {place : OperandPlace} (hlast : place.last < n) :
    indexAhead body' pc' place = indexAhead body pc place := by
  cases place with
  | half unit => rw [indexAhead, indexAhead, h unit hlast]
  | full unit =>
    simp only [OperandPlace.last] at hlast
    rw [indexAhead, indexAhead, wordAhead, wordAhead, h unit (by omega), h (unit + 1) hlast]

/-- The operands of what starts at a position lie in the units of which it consists. -/
theorem last_lt_widthAt : ∀ x ∈ operandKinds (ahead body pc 0).toUInt8,
    x.2.last < widthAt body pc := by
  intro x hx
  cases hopens : opensPayload (ahead body pc 0) with
  | true =>
    rw [toUInt8_of_opensPayload hopens] at hx
    cases hx
  | false =>
    simp only [opensPayload, Bool.or_eq_false_iff] at hopens
    have hlast := last_lt_units _ x hx
    simpa [widthAt, hopens] using hlast

/-- What starts at a position depends on the units of which it consists, and on nothing else. -/
theorem front_congr (h : ∀ k < widthAt body pc, body'[pc' + k]? = body[pc + k]?) :
    front body' pc' = { front body pc with pc := pc' } := by
  have hahead : ∀ k < widthAt body pc, ahead body' pc' k = ahead body pc k := by
    intro k hk
    rw [ahead, ahead, h k hk]
  have hhead := headUnits_le_widthAt body pc
  have hwidth : widthAt body' pc' = widthAt body pc :=
    widthAt_congr fun k hk => hahead k (Nat.lt_of_lt_of_le hk hhead)
  have hfirst : ahead body' pc' 0 = ahead body pc 0 :=
    hahead 0 (Nat.lt_of_lt_of_le (headUnits_pos body pc) hhead)
  unfold front
  rw [hfirst, hwidth]
  congr 1
  refine List.map_congr_left fun x hx => ?_
  rw [indexAhead_congr hahead (last_lt_widthAt x hx)]

/-- An instruction is decoded wherever its units stand, whatever stands around them. -/
theorem decodeAt_of_units (h : decodeAt body pc = .ok i)
    (hunits : ∀ k < i.units, body'[pc' + k]? = body[pc + k]?) :
    decodeAt body' pc' = .ok { i with pc := pc' } := by
  obtain ⟨hfit, rfl⟩ := decodeAt_eq_ok_iff.mp h
  change ∀ k < widthAt body pc, _ at hunits
  have hfront := front_congr hunits
  have hwidth : widthAt body' pc' = widthAt body pc := congrArg Instruction.units hfront
  have hpos := Nat.lt_of_lt_of_le (headUnits_pos body pc) (headUnits_le_widthAt body pc)
  refine decodeAt_eq_ok_iff.mpr ⟨?_, hfront.symm⟩
  -- the last unit stands in the other body as well
  have hlast := (hunits (widthAt body pc - 1) (by omega)).trans
    (Array.getElem?_eq_getElem (by omega))
  have := (Array.getElem?_eq_some_iff.mp hlast).1
  omega

/-- Behind other units the instructions are the same, and so are the failures. -/
theorem decodeAt_append_right (before body : Array UInt16) (pc : Nat) :
    decodeAt (before ++ body) (before.size + pc) =
      (decodeAt body pc).map (shift before.size) := by
  have hget (k : Nat) : (before ++ body)[before.size + pc + k]? = body[pc + k]? := by
    rw [Array.getElem?_append_right (by omega)]
    congr 1
    omega
  have hfront : front (before ++ body) (before.size + pc) = shift before.size (front body pc) :=
    front_congr fun k _ => hget k
  have hwidth : widthAt (before ++ body) (before.size + pc) = widthAt body pc :=
    congrArg Instruction.units hfront
  rw [decodeAt_eq, decodeAt_eq, hfront, hwidth, Array.size_append, Nat.add_assoc]
  by_cases hfit : pc + widthAt body pc ≤ body.size
  · rw [if_pos (by omega), if_pos hfit]
    rfl
  · rw [if_neg (by omega), if_neg hfit]
    rfl

/-- What is decoded before other units is decoded without them as well. -/
theorem decodeAt_append_left (h : decodeAt body pc = .ok i) (behind : Array UInt16) :
    decodeAt (body ++ behind) pc = .ok i := by
  obtain ⟨hfit, rfl⟩ := decodeAt_eq_ok_iff.mp h
  refine decodeAt_of_units h fun k hk => ?_
  rw [Array.getElem?_append_left (Nat.lt_of_lt_of_le (Nat.add_lt_add_left hk pc) hfit)]

end Instruction

namespace Walk

open Instruction (decodeAt shift headUnits widthAt)

variable {body behind : Array UInt16} {pc stop : Nat} {instructions rest : List Instruction}
  {walk walk' : Walk}

/-! ## Walking on -/

/-- The instructions follow each other without gaps from one position to another, and each of them
takes a unit at least. -/
def Tiles : Nat → List Instruction → Nat → Prop
  | pc, [], stop => pc = stop
  | pc, i :: rest, stop => i.pc = pc ∧ 0 < i.units ∧ Tiles (pc + i.units) rest stop

theorem Along.tiles (h : Along body pc instructions stop) : Tiles pc instructions stop := by
  induction h with
  | done pc => rfl
  | step first along ih =>
    refine ⟨?_, (Instruction.units_of_decodeAt first).1, ih⟩
    obtain ⟨-, rfl⟩ := Instruction.decodeAt_eq_ok_iff.mp first
    rfl

theorem Along.decodeAt_eq (h : Along body pc instructions stop) :
    ∀ i ∈ instructions, decodeAt body i.pc = .ok i := by
  induction h with
  | done pc => exact List.forall_mem_nil _
  | step first along ih =>
    refine List.forall_mem_cons.mpr ⟨?_, ih⟩
    obtain ⟨-, rfl⟩ := Instruction.decodeAt_eq_ok_iff.mp first
    exact first

theorem Along.append {middle : Nat} (h : Along body pc instructions middle)
    (h' : Along body middle rest stop) : Along body pc (instructions ++ rest) stop := by
  induction h with
  | done pc => exact h'
  | step first along ih => exact .step first (ih h')

theorem Along.append_left (h : Along body pc instructions stop) (behind : Array UInt16) :
    Along (body ++ behind) pc instructions stop := by
  induction h with
  | done pc => exact .done pc
  | step first along ih => exact .step (Instruction.decodeAt_append_left first behind) ih

theorem Along.append_right (h : Along body pc instructions stop) (before : Array UInt16) :
    Along (before ++ body) (before.size + pc) (instructions.map (shift before.size))
      (before.size + stop) := by
  induction h with
  | done pc => exact .done _
  | step first along ih =>
    refine .step (i := shift before.size _) ?_ ?_
    · rw [Instruction.decodeAt_append_right, first]
      rfl
    · rwa [Nat.add_assoc]

/-- The walk through a body that goes to the end goes on in what follows the body. -/
theorem Passes.append (h : Passes body 0 walk) (hwhole : walk.failure = none)
    (h' : Passes behind 0 walk') : Passes (body ++ behind) 0
      ⟨walk.instructions ++ walk'.instructions.map (shift body.size), walk'.failure⟩ := by
  obtain ⟨stop, halong, hstops⟩ := h
  obtain ⟨stop', halong', hstops'⟩ := h'
  obtain rfl : stop = body.size := by
    rcases hstops with ⟨-, hstop⟩ | ⟨e, hfailure, -⟩
    · exact hstop
    · cases hwhole.symm.trans hfailure
  refine ⟨body.size + stop', (halong.append_left behind).append (halong'.append_right body), ?_⟩
  rcases hstops' with ⟨hfailure, rfl⟩ | ⟨e, hfailure, hlt, herror⟩
  · exact .inl ⟨hfailure, Array.size_append.symm⟩
  · refine .inr ⟨e, hfailure, by rw [Array.size_append]; omega, ?_⟩
    rw [Instruction.decodeAt_append_right, herror]
    rfl

/-- The walk through a body lists its instructions without gaps, each of them as it is decoded, up
to the end or to the first one that does not fit, where it fails. What does not fit is known from
its head, and what fits is decoded from the units of which it consists. If the walk through a body
goes to the end, the walk through the body and what follows it goes on with the walk through the
latter. -/
theorem ofUnits_tiles (body : Array UInt16) :
    (∃ stop, Tiles 0 (ofUnits body).instructions stop ∧
      (∀ i ∈ (ofUnits body).instructions, decodeAt body i.pc = .ok i) ∧
      ((ofUnits body).failure = none ∧ stop = body.size ∨
        (ofUnits body).failure = some .outOfBounds ∧ stop < body.size ∧
          decodeAt body stop = .error .outOfBounds)) ∧
    (∀ pc e, decodeAt body pc = .error e ↔ e = .outOfBounds ∧ (body.size ≤ pc ∨
      body.size < pc + headUnits body pc ∨ body.size < pc + widthAt body pc)) ∧
    (∀ pc i, decodeAt body pc = .ok i → i.units = widthAt body pc ∧
      (∀ x ∈ operandKinds i.opcode, x.2.last < i.units) ∧
      ∀ (other : Array UInt16) (pc' : Nat), (∀ k < i.units, other[pc' + k]? = body[pc + k]?) →
        decodeAt other pc' = .ok { i with pc := pc' }) ∧
    ∀ behind, (ofUnits body).failure = none → ofUnits (body ++ behind) =
      ⟨(ofUnits body).instructions ++ (ofUnits behind).instructions.map (shift body.size),
        (ofUnits behind).failure⟩ := by
  refine ⟨?_, fun pc e => Instruction.decodeAt_eq_error_iff, fun pc i hi => ⟨?_, ?_, ?_⟩,
    fun behind hwhole => ?_⟩
  · obtain ⟨stop, halong, hstops⟩ := passes_ofUnits body
    refine ⟨stop, halong.tiles, halong.decodeAt_eq, hstops.imp_right ?_⟩
    rintro ⟨e, hfailure, hlt, herror⟩
    obtain ⟨rfl, -⟩ := Instruction.decodeAt_eq_error_iff.mp herror
    exact ⟨hfailure, hlt, herror⟩
  · obtain ⟨-, rfl⟩ := Instruction.decodeAt_eq_ok_iff.mp hi
    rfl
  · obtain ⟨-, rfl⟩ := Instruction.decodeAt_eq_ok_iff.mp hi
    exact Instruction.last_lt_widthAt
  · exact fun other pc' => Instruction.decodeAt_of_units hi
  · exact (passes_ofUnits _).unique ((passes_ofUnits body).append hwhole (passes_ofUnits behind))

/-- Two plain instructions, the table of a switch, the contents of an array and a string
constant. -/
def payloadBody : Array UInt16 :=
  #[0x000E, 0x0000, 0x0100, 2, 0, 0, 1, 0, 2, 0, 0x0300, 1, 3, 0, 0x0201, 3, 0x001A, 9]

/-- A string constant with a wide index, and the beginning of a wide constant. -/
def cutBody : Array UInt16 :=
  #[0x001B, 1, 2, 0x0018, 0]

/-- The walk through a body with payloads goes on behind it, up to the instruction that is cut off.
The contents of the array are decoded without what stands around them. -/
theorem ofUnits_tiles_payloadBody : (ofUnits payloadBody).failure = none ∧
    ofUnits (payloadBody ++ cutBody) =
      ⟨(ofUnits payloadBody).instructions ++ [⟨18, 0x1B, some .f31c, 3, [⟨.string, 0x20001⟩]⟩],
        some .outOfBounds⟩ ∧
    decodeAt payloadBody 10 = .ok ⟨10, 0, none, 6, []⟩ ∧
    decodeAt (payloadBody.extract 10 16) 0 = .ok ⟨0, 0, none, 6, []⟩ := by
  have hwhole : (ofUnits payloadBody).failure = none := by decide +kernel
  have harray : decodeAt payloadBody 10 = .ok ⟨10, 0, none, 6, []⟩ := by rfl
  have hcut : ofUnits cutBody = ⟨[⟨0, 0x1B, some .f31c, 3, [⟨.string, 0x20001⟩]⟩],
      some .outOfBounds⟩ := by
    decide +kernel
  obtain ⟨-, -, hdecoded, happend⟩ := ofUnits_tiles payloadBody
  refine ⟨hwhole, ?_, harray, ?_⟩
  · rw [happend cutBody hwhole, hcut]
    rfl
  · exact (hdecoded 10 _ harray).2.2 _ 0 (by decide)

end Walk

end DexGraph
