import DexGraph.Proofs.Codec.Concat
import DexGraph.Proofs.Layout.Places
import DexGraph.Writing.Image

/-!
# What a step of writing establishes

`Writer.Establishes job E w Q d` says that the step `w`, started from the draft `d`, either succeeds
and then `Q` holds of its result and its draft, or fails with an error that `E` admits. There is one
equivalence for every way of building steps, so that a step in `do` notation opens from its first
action on; `Writer.establishes_foldlM` is the rule for loops.
-/

namespace DexGraph

namespace Writer

variable {α β : Type} {job : Job} {E : Error → Prop} {d : Draft}

/-- The second of two steps is taken where the first has succeeded. -/
theorem run_bind (w : Writer β) (f : β → Writer α) (job : Job) (d : Draft) :
    (w >>= f) job d = match w job d with
      | .ok b d' => f b job d'
      | .error e d' => .error e d' := by
  change EStateM.bind (w job) (fun b => f b job) d = _
  unfold EStateM.bind
  cases w job d <;> rfl

/-- Started from `d`, the step either succeeds with what satisfies `Q`, or fails with an error that
`E` admits. -/
def Establishes (job : Job) (E : Error → Prop) (w : Writer α) (Q : α → Draft → Prop) (d : Draft) :
    Prop :=
  match w job d with
  | .ok a d' => Q a d'
  | .error e _ => E e

theorem Establishes.of_ok {w : Writer α} {Q : α → Draft → Prop} {a : α} {d' : Draft}
    (h : Establishes job E w Q d) (hw : w job d = .ok a d') : Q a d' := by
  unfold Establishes at h
  rwa [hw] at h

theorem Establishes.of_error {w : Writer α} {Q : α → Draft → Prop} {e : Error} {d' : Draft}
    (h : Establishes job E w Q d) (hw : w job d = .error e d') : E e := by
  unfold Establishes at h
  rwa [hw] at h

theorem Establishes.mono {w : Writer α} {Q Q' : α → Draft → Prop} (h : Establishes job E w Q d)
    (hQ : ∀ a d', Q a d' → Q' a d') : Establishes job E w Q' d := by
  unfold Establishes at h ⊢
  cases hw : w job d with
  | ok a d' =>
    rw [hw] at h
    exact hQ a d' h
  | error e d' => rwa [hw] at h

section Rules

variable {Q : α → Draft → Prop}

theorem establishes_pure {a : α} : Establishes job E (pure a) Q d ↔ Q a d :=
  Iff.rfl

theorem establishes_bind {w : Writer β} {f : β → Writer α} :
    Establishes job E (w >>= f) Q d ↔
      Establishes job E w (fun b => Establishes job E (f b) Q) d := by
  unfold Establishes
  rw [run_bind]
  cases w job d <;> rfl

/-- What a first step establishes is what a second one starts from. -/
theorem Establishes.bind {w : Writer β} {f : β → Writer α} {R : β → Draft → Prop}
    (h : Establishes job E w R d) (hf : ∀ b d', R b d' → Establishes job E (f b) Q d') :
    Establishes job E (w >>= f) Q d :=
  establishes_bind.mpr (h.mono hf)

theorem establishes_read {Q : Job → Draft → Prop} : Establishes job E read Q d ↔ Q job d :=
  Iff.rfl

theorem establishes_get {Q : Draft → Draft → Prop} : Establishes job E get Q d ↔ Q d d :=
  Iff.rfl

theorem establishes_throw {e : Error} : Establishes job E (throw e) Q d ↔ E e :=
  Iff.rfl

theorem establishes_ofExcept {x : Except Error α} :
    Establishes job E (ofExcept x) Q d ↔
      (∀ a, x = .ok a → Q a d) ∧ ∀ e, x = .error e → E e := by
  cases x with
  | ok a =>
    change Q a d ↔ _
    simp
  | error e =>
    change E e ↔ _
    simp

theorem establishes_ofExcept_ok {x : Except Error α} {a : α} (h : x = .ok a) :
    Establishes job E (ofExcept x) Q d ↔ Q a d := by
  rw [h]
  exact establishes_pure

theorem establishes_changeStream {Q : Unit → Draft → Prop} {f : Stream → Stream} :
    Establishes job E (changeStream f) Q d ↔ Q () { d with stream := f d.stream } :=
  Iff.rfl

theorem establishes_changeLayout {Q : Unit → Draft → Prop} {f : Layout → Layout} :
    Establishes job E (changeLayout f) Q d ↔ Q () { d with layout := f d.layout } :=
  Iff.rfl

theorem establishes_tell {Q : Nat → Draft → Prop} :
    Establishes job E tell Q d ↔ Q d.stream.position d :=
  Iff.rfl

theorem establishes_computesOffsets {Q : Bool → Draft → Prop} :
    Establishes job E computesOffsets Q d ↔ Q job.options.computeOffsets d :=
  Iff.rfl

theorem establishes_ite {c : Prop} [Decidable c] {w w' : Writer α} :
    Establishes job E (if c then w else w') Q d ↔
      (c → Establishes job E w Q d) ∧ (¬ c → Establishes job E w' Q d) := by
  split <;> simp_all

end Rules

/-- The rule for loops: `I` relates the elements that have been taken to the accumulator and the
draft, and every turn of the loop keeps it. -/
theorem establishes_foldlM {f : β → α → Writer β} {I : List α → β → Draft → Prop} {xs : List α}
    (hstep : ∀ done x rest b d, xs = done ++ x :: rest → I done b d →
      Establishes job E (f b x) (I (done ++ [x])) d)
    {b : β} (h : I [] b d) : Establishes job E (xs.foldlM f b) (I xs) d := by
  suffices H : ∀ rest done b d, xs = done ++ rest → I done b d →
      Establishes job E (rest.foldlM f b) (I xs) d from H xs [] b d rfl h
  intro rest
  induction rest with
  | nil =>
    intro done b d hxs hI
    rw [List.append_nil] at hxs
    rw [List.foldlM_nil, establishes_pure, hxs]
    exact hI
  | cons x rest ih =>
    intro done b d hxs hI
    rw [List.foldlM_cons, establishes_bind]
    refine (hstep done x rest b d hxs hI).mono fun b' d' hI' => ?_
    exact ih (done ++ [x]) b' d' (by simp [hxs]) hI'

/-- A loop every turn of which establishes something of its element alone. -/
theorem establishes_foldlM_each {f : β → α → Writer β} {I : Draft → Prop} {P : α → Prop}
    {xs : Array α}
    (hstep : ∀ x ∈ xs, ∀ b d, I d → Establishes job E (f b x) (fun _ d' => I d' ∧ P x) d)
    {b : β} (h : I d) :
    Establishes job E (xs.foldlM f b) (fun _ d' => I d' ∧ ∀ x ∈ xs, P x) d := by
  rw [← Array.foldlM_toList]
  simp only [← Array.mem_toList_iff] at hstep ⊢
  refine establishes_foldlM (I := fun done _ d' => I d' ∧ ∀ x ∈ done, P x) ?_ ⟨h, by simp⟩
  rintro done x rest b d' hxs ⟨h', hdone⟩
  refine (hstep x (by simp [hxs]) b d' h').mono fun _ _ hx => ⟨hx.1, fun y hy => ?_⟩
  rcases List.mem_append.mp hy with hy | hy
  · exact hdone y hy
  · exact List.mem_singleton.mp hy ▸ hx.2

theorem establishes_forM {f : α → Writer PUnit} {I : List α → Draft → Prop} {xs : Array α}
    (hstep : ∀ done x rest d, xs.toList = done ++ x :: rest → I done d →
      Establishes job E (f x) (fun _ => I (done ++ [x])) d)
    (h : I [] d) : Establishes job E (xs.forM f) (fun _ => I xs.toList) d := by
  have hfold : xs.forM f = xs.toList.foldlM (fun _ x => f x) ⟨⟩ := by
    rw [Array.foldlM_toList]
    rfl
  rw [hfold]
  exact establishes_foldlM (fun done x rest _ d => hstep done x rest d) h

end Writer

end DexGraph
