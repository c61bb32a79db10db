import DexGraph.Error
import DexGraph.Proofs.Bytes.HoldsAt

/-!
# Encoders that put pieces behind each other

Most encoders go through an array and put the bytes of each element behind those before it. This
file turns the loops into concatenations: `Bytes.toList_foldl_append` for pieces that cannot fail,
`Bytes.foldlM_append_eq_ok_iff` for pieces that can.
-/

namespace DexGraph

/-- An error that says that something has no offset. -/
def Error.LacksOffset (e : Error) : Prop :=
  ∃ subject, e = .unassignedOffset subject

theorem toWord_eq_ok_iff {n : Nat} {v : UInt32} : toWord n = .ok v ↔ n = v.toNat := by
  unfold toWord
  split
  · rename_i h
    constructor
    · rintro ⟨⟩
      exact (toNat_toUInt32 h).symm
    · rintro rfl
      simp
  · rename_i h
    constructor
    · rintro ⟨⟩
    · rintro rfl
      exact absurd v.toNat_lt h

theorem toWord_eq_ok_iff_lt {n : Nat} {v : UInt32} :
    toWord n = .ok v ↔ n < 2 ^ 32 ∧ v = n.toUInt32 := by
  rw [toWord_eq_ok_iff]
  constructor
  · rintro rfl
    exact ⟨v.toNat_lt, by simp⟩
  · rintro ⟨h, rfl⟩
    exact (toNat_toUInt32 h).symm

theorem toWord_ne_error {n : Nat} (h : n < 2 ^ 32) {e : Error} : toWord n ≠ .error e := by
  rw [toWord_eq_ok_iff_lt.mpr ⟨h, rfl⟩]
  simp

theorem toHalfWord_eq_ok_iff {n : Nat} {v : UInt16} : toHalfWord n = .ok v ↔ n = v.toNat := by
  unfold toHalfWord
  split
  · rename_i h
    constructor
    · rintro ⟨⟩
      rw [Nat.toUInt16_eq, UInt16.toNat_ofNat', Nat.mod_eq_of_lt h]
    · rintro rfl
      simp
  · rename_i h
    constructor
    · rintro ⟨⟩
    · rintro rfl
      exact absurd v.toNat_lt h

theorem not_lacksOffset_of_toWord {n : Nat} {e : Error} (h : toWord n = .error e) :
    ¬ e.LacksOffset := by
  unfold toWord at h
  split at h
  · cases h
  · cases h
    rintro ⟨_, ⟨⟩⟩

theorem not_lacksOffset_of_toHalfWord {n : Nat} {e : Error} (h : toHalfWord n = .error e) :
    ¬ e.LacksOffset := by
  unfold toHalfWord at h
  split at h
  · cases h
  · cases h
    rintro ⟨_, ⟨⟩⟩

/-! ## Outcomes in sequence -/

namespace Except

variable {α β : Type}

theorem bind_eq_ok_iff {x : Except Error α} {f : α → Except Error β} {b : β} :
    (x >>= f) = .ok b ↔ ∃ a, x = .ok a ∧ f a = .ok b := by
  cases x with
  | error e => simp [bind, Except.bind]
  | ok a => simp [bind, Except.bind]

theorem bind_eq_error_iff {x : Except Error α} {f : α → Except Error β} {e : Error} :
    (x >>= f) = .error e ↔ x = .error e ∨ ∃ a, x = .ok a ∧ f a = .error e := by
  cases x with
  | error e => simp [bind, Except.bind]
  | ok a => simp [bind, Except.bind]

theorem map_eq_ok_iff {x : Except Error α} {f : α → β} {b : β} :
    f <$> x = .ok b ↔ ∃ a, x = .ok a ∧ b = f a := by
  cases x with
  | error e => simp [Functor.map, Except.map]
  | ok a => simp [Functor.map, Except.map, eq_comm]

theorem pure_eq_ok_iff {a b : α} : (pure a : Except Error α) = .ok b ↔ b = a := by
  simp [pure, Except.pure, eq_comm]

theorem pure_ne_error {a : α} {e : Error} : (pure a : Except Error α) ≠ .error e := by
  simp [pure, Except.pure]

theorem mapM_eq_ok_iff {f : α → Except Error β} {xs : List α} {ys : List β} :
    xs.mapM f = .ok ys ↔ List.Forall₂ (fun x y => f x = .ok y) xs ys := by
  induction xs generalizing ys with
  | nil =>
    rw [List.mapM_nil, pure_eq_ok_iff, List.forall₂_nil_left_iff]
  | cons x xs ih =>
    simp only [List.mapM_cons, bind_eq_ok_iff, pure_eq_ok_iff, ih, List.forall₂_cons_left_iff]
    constructor
    · rintro ⟨y, hy, ys, hys, rfl⟩
      exact ⟨y, ys, hy, hys, rfl⟩
    · rintro ⟨y, ys, hy, hys, rfl⟩
      exact ⟨y, hy, ys, hys, rfl⟩

end Except

namespace Bytes

variable {α : Type}

theorem toList_foldl_append (f : α → Bytes) (xs : List α) (start : Bytes) :
    (xs.foldl (fun bytes x => bytes ++ f x) start).toList =
      start.toList ++ xs.flatMap fun x => (f x).toList := by
  induction xs generalizing start with
  | nil => simp
  | cons x xs ih => simp [ih]

/-- The pieces of the elements of a list, one behind the other. -/
def pieces (f : α → Except Error Bytes) : List α → Except Error (List UInt8)
  | [] => .ok []
  | x :: xs => do
    let head ← f x
    let tail ← pieces f xs
    return head.toList ++ tail

theorem foldlM_append_eq_ok_iff {f : α → Except Error Bytes} {xs : List α} {start out : Bytes} :
    xs.foldlM (fun bytes x => return bytes ++ (← f x)) start = .ok out ↔
      ∃ tail, pieces f xs = .ok tail ∧ out.toList = start.toList ++ tail := by
  induction xs generalizing start with
  | nil =>
    simp only [List.foldlM_nil, Except.pure_eq_ok_iff, pieces]
    constructor
    · rintro rfl
      exact ⟨[], rfl, by simp⟩
    · rintro ⟨_, ⟨⟩, h⟩
      exact Array.toList_inj.mp (by simpa using h)
  | cons x xs ih =>
    simp only [List.foldlM_cons, Except.bind_eq_ok_iff, Except.pure_eq_ok_iff, pieces]
    constructor
    · rintro ⟨_, ⟨part, hx, rfl⟩, h⟩
      obtain ⟨tail, htail, hout⟩ := ih.mp h
      exact ⟨_, ⟨part, hx, tail, htail, rfl⟩, by simp [hout]⟩
    · rintro ⟨_, ⟨part, hx, tail, htail, rfl⟩, hout⟩
      exact ⟨_, ⟨part, hx, rfl⟩, ih.mpr ⟨tail, htail, by simp [hout]⟩⟩

theorem foldlM_append_eq_error {f : α → Except Error Bytes} {xs : List α} {start : Bytes}
    {e : Error} (h : xs.foldlM (fun bytes x => return bytes ++ (← f x)) start = .error e) :
    ∃ x ∈ xs, f x = .error e := by
  induction xs generalizing start with
  | nil => cases h
  | cons x xs ih =>
    simp only [List.foldlM_cons, Except.bind_eq_error_iff] at h
    rcases h with (h | ⟨_, _, h⟩) | ⟨_, _, h⟩
    · exact ⟨x, List.mem_cons_self, h⟩
    · exact absurd h Except.pure_ne_error
    · obtain ⟨y, hy, he⟩ := ih h
      exact ⟨y, List.mem_cons_of_mem _ hy, he⟩

theorem pieces_congr {f f' : α → Except Error Bytes} {xs : List α} {out : List UInt8}
    (h : pieces f xs = .ok out) (hf : ∀ x ∈ xs, ∀ part, f x = .ok part → f' x = .ok part) :
    pieces f' xs = .ok out := by
  induction xs generalizing out with
  | nil => exact h
  | cons x xs ih =>
    simp only [pieces, Except.bind_eq_ok_iff] at h ⊢
    obtain ⟨part, hx, tail, htail, h⟩ := h
    exact ⟨part, hf x List.mem_cons_self _ hx, tail,
      ih htail fun y hy => hf y (List.mem_cons_of_mem _ hy), h⟩

theorem pieces_congr_forall₂ {α β : Type} {f : α → Except Error Bytes}
    {f' : β → Except Error Bytes} {xs : List α} {ys : List β} {out : List UInt8}
    (h : pieces f xs = .ok out)
    (hf : List.Forall₂ (fun x y => ∀ part, f x = .ok part → f' y = .ok part) xs ys) :
    pieces f' ys = .ok out := by
  induction hf generalizing out with
  | nil => exact h
  | cons hxy _ ih =>
    simp only [pieces, Except.bind_eq_ok_iff] at h ⊢
    obtain ⟨head, hhead, tail, htail, hout⟩ := h
    exact ⟨head, hxy head hhead, tail, ih htail, hout⟩

theorem exists_of_pieces {f : α → Except Error Bytes} {xs : List α} {out : List UInt8}
    (h : pieces f xs = .ok out) {x : α} (hx : x ∈ xs) : ∃ part, f x = .ok part := by
  induction xs generalizing out with
  | nil => cases hx
  | cons y ys ih =>
    obtain ⟨head, hhead, h⟩ := Except.bind_eq_ok_iff.mp h
    obtain ⟨tail, htail, -⟩ := Except.bind_eq_ok_iff.mp h
    rcases List.mem_cons.mp hx with rfl | hx
    · exact ⟨head, hhead⟩
    · exact ih htail hx

theorem pieces_concat {f : α → Except Error Bytes} {xs : List α} {out : List UInt8} {x : α}
    {part : Bytes} (h : pieces f xs = .ok out) (hx : f x = .ok part) :
    pieces f (xs ++ [x]) = .ok (out ++ part.toList) := by
  induction xs generalizing out with
  | nil =>
    cases h
    simp [pieces, hx]
    rfl
  | cons y ys ih =>
    simp only [List.cons_append, pieces, Except.bind_eq_ok_iff, Except.pure_eq_ok_iff] at h ⊢
    obtain ⟨head, hy, tail, htail, rfl⟩ := h
    exact ⟨head, hy, _, ih htail, by simp⟩

theorem length_pieces {f : α → Except Error Bytes} {n : Nat} {xs : List α} {out : List UInt8}
    (h : pieces f xs = .ok out) (hf : ∀ x part, f x = .ok part → part.size = n) :
    out.length = xs.length * n := by
  induction xs generalizing out with
  | nil =>
    cases h
    simp
  | cons x xs ih =>
    simp only [pieces, Except.bind_eq_ok_iff, Except.pure_eq_ok_iff] at h
    obtain ⟨part, hx, tail, htail, rfl⟩ := h
    simp [hf x part hx, ih htail, Nat.add_mul, Nat.add_comm]

/-- Pieces of one size stand at the multiples of this size. -/
theorem HoldsAt.piece {f : α → Except Error Bytes} {n : Nat} {xs : List α} {out : List UInt8}
    {data : Bytes} {p : Nat} (hat : data.HoldsAt p out) (h : pieces f xs = .ok out)
    (hf : ∀ x part, f x = .ok part → part.size = n) {i : Nat} {x : α} (hx : xs[i]? = some x) :
    ∃ part, f x = .ok part ∧ data.HoldsAt (p + i * n) part.toList := by
  induction xs generalizing out p i with
  | nil => cases hx
  | cons y ys ih =>
    simp only [pieces, Except.bind_eq_ok_iff, Except.pure_eq_ok_iff] at h
    obtain ⟨head, hy, tail, htail, rfl⟩ := h
    obtain ⟨hhead, hrest⟩ := holdsAt_append.mp hat
    cases i with
    | zero =>
      cases hx
      exact ⟨head, hy, by simpa using hhead⟩
    | succ i =>
      rw [Array.length_toList, hf y head hy] at hrest
      obtain ⟨part, hpart, hat⟩ := ih hrest htail hx
      exact ⟨part, hpart, by rwa [Nat.succ_mul, Nat.add_comm (i * n), ← Nat.add_assoc]⟩

/-- Where pieces of one size stand at the multiples of this size, they stand one behind the other. -/
theorem exists_pieces {f : α → Except Error Bytes} {n : Nat} {xs : List α} {data : Bytes} {p : Nat}
    (h : ∀ i x, xs[i]? = some x →
      ∃ part, f x = .ok part ∧ part.size = n ∧ data.HoldsAt (p + i * n) part.toList) :
    ∃ out, pieces f xs = .ok out ∧ out.length = xs.length * n ∧ data.HoldsAt p out := by
  induction xs generalizing p with
  | nil => exact ⟨[], rfl, by simp, holdsAt_nil data p⟩
  | cons x xs ih =>
    obtain ⟨part, hx, hsize, hat⟩ := h 0 x rfl
    obtain ⟨tail, htail, hlength, hrest⟩ := ih (p := p + n) fun i y hi => by
      obtain ⟨part, hy, hsize, hat⟩ := h (i + 1) y hi
      exact ⟨part, hy, hsize, by rwa [Nat.succ_mul, Nat.add_comm (i * n), ← Nat.add_assoc] at hat⟩
    rw [Nat.zero_mul, Nat.add_zero] at hat
    refine ⟨part.toList ++ tail, by rw [pieces, hx, htail]; rfl, ?_, holdsAt_append.mpr ⟨hat, ?_⟩⟩
    · rw [List.length_append, Array.length_toList, hsize, hlength, List.length_cons, Nat.succ_mul,
        Nat.add_comm]
    · rwa [Array.length_toList, hsize]

end Bytes

end DexGraph
