import DexGraph.Proofs.Writing.Establishes

/-!
# Two runs of a step of writing

`Writer.Coupled job job' w w' Q d d'` says that two steps, each with a job and a draft of its own,
end alike: either both succeed, and then `Q` holds of their results and their drafts, or both fail
with the same error. As for a single run there is one rule for every way of building steps. The two
runs go on with different steps as soon as they look at their jobs or drafts, so the rules are about
pairs of steps throughout.

Where two runs do the same things in different orders they need not fail with the same error.
`Writer.Together` says the same as `Writer.Coupled` except that it does not tell the errors apart.
-/

namespace DexGraph

/-- Either both outcomes are results, of which `R` holds, or both are the same error. -/
def Agree {α β : Type} (R : α → β → Prop) : Except Error α → Except Error β → Prop
  | .ok a, .ok b => R a b
  | .error e, .error e' => e = e'
  | _, _ => False

section Agree

variable {α β γ δ : Type} {R : α → β → Prop}

theorem agree_refl {R : α → α → Prop} (hR : ∀ a, R a a) (x : Except Error α) : Agree R x x := by
  cases x with
  | ok a => exact hR a
  | error e => exact rfl

theorem agree_of_eq {x x' : Except Error α} (h : x = x') : Agree Eq x x' :=
  h ▸ agree_refl (fun _ => rfl) x

theorem Agree.bind {S : γ → δ → Prop} {x : Except Error α} {x' : Except Error β}
    {f : α → Except Error γ} {f' : β → Except Error δ} (h : Agree R x x')
    (hf : ∀ a b, R a b → Agree S (f a) (f' b)) : Agree S (x >>= f) (x' >>= f') := by
  cases x <;> cases x' <;> first | exact hf _ _ h | exact h | exact h.elim

end Agree

namespace Writer

variable {α β γ δ : Type} {job job' : Job} {d d' : Draft}

/-- Started from `d` and `d'`, the two steps either succeed with results of which `Q` holds together
with their drafts, or fail with the same error. -/
def Coupled (job job' : Job) (w : Writer α) (w' : Writer β) (Q : α → β → Draft → Draft → Prop)
    (d d' : Draft) : Prop :=
  match w job d, w' job' d' with
  | .ok a e, .ok b e' => Q a b e e'
  | .error e _, .error e' _ => e = e'
  | _, _ => False

/-- What is told of a run: its result or its error, but not its draft. -/
def outcome (w : Writer α) (job : Job) (d : Draft) : Except Error α :=
  match w job d with
  | .ok a _ => .ok a
  | .error e _ => .error e

theorem Coupled.outcome_eq {w w' : Writer α} {Q : α → α → Draft → Draft → Prop}
    (h : Coupled job job' w w' Q d d') (hQ : ∀ a b e e', Q a b e e' → a = b) :
    w.outcome job d = w'.outcome job' d' := by
  unfold Coupled at h
  unfold outcome
  split at h
  · rename_i hw hw'
    rw [hw, hw', hQ _ _ _ _ h]
  · rename_i hw hw'
    rw [hw, hw', h]
  · exact h.elim

variable {w : Writer α} {w' : Writer β} {Q : α → β → Draft → Draft → Prop}

theorem coupled_pure {a : α} {b : β} (h : Q a b d d') :
    Coupled job job' (pure a) (pure b) Q d d' :=
  h

theorem Coupled.bind {v : Writer γ} {v' : Writer δ} {f : γ → Writer α} {f' : δ → Writer β}
    {R : γ → δ → Draft → Draft → Prop} (h : Coupled job job' v v' R d d')
    (hf : ∀ a b e e', R a b e e' → Coupled job job' (f a) (f' b) Q e e') :
    Coupled job job' (v >>= f) (v' >>= f') Q d d' := by
  unfold Coupled at h ⊢
  rw [run_bind, run_bind]
  split at h
  · rename_i hv hv'
    rw [hv, hv']
    exact hf _ _ _ _ h
  · rename_i hv hv'
    rw [hv, hv']
    exact h
  · exact h.elim

theorem Coupled.mono {R : α → β → Draft → Draft → Prop} (h : Coupled job job' w w' R d d')
    (hR : ∀ a b e e', R a b e e' → Q a b e e') : Coupled job job' w w' Q d d' := by
  unfold Coupled at h ⊢
  split
  · rename_i hw hw'
    rw [hw, hw'] at h
    exact hR _ _ _ _ h
  · rename_i hw hw'
    rwa [hw, hw'] at h
  · rename_i hok herror
    split at h
    · rename_i hw hw'
      exact hok _ _ _ _ hw hw'
    · rename_i hw hw'
      exact herror _ _ _ _ hw hw'
    · exact h

theorem coupled_read_bind {f : Job → Writer α} {f' : Job → Writer β}
    (h : Coupled job job' (f job) (f' job') Q d d') :
    Coupled job job' (read >>= f) (read >>= f') Q d d' :=
  h

theorem coupled_get_bind {f : Draft → Writer α} {f' : Draft → Writer β}
    (h : Coupled job job' (f d) (f' d') Q d d') :
    Coupled job job' (get >>= f) (get >>= f') Q d d' :=
  h

theorem coupled_throw {e : Error} : Coupled job job' (throw e) (throw e) Q d d' :=
  rfl

theorem coupled_ofExcept {R : α → β → Prop} {x : Except Error α} {x' : Except Error β}
    (hx : Agree R x x') (h : ∀ a b, R a b → Q a b d d') :
    Coupled job job' (ofExcept x) (ofExcept x') Q d d' := by
  cases x <;> cases x' <;> first | exact h _ _ hx | exact hx

theorem coupled_ok_bind {a : γ} {b : δ} {f : γ → Writer α} {f' : δ → Writer β}
    (h : Coupled job job' (f a) (f' b) Q d d') :
    Coupled job job' (ofExcept (.ok a) >>= f) (ofExcept (.ok b) >>= f') Q d d' :=
  h

theorem coupled_changeStream {Q : Unit → Unit → Draft → Draft → Prop} {f f' : Stream → Stream}
    (h : Q () () { d with stream := f d.stream } { d' with stream := f' d'.stream }) :
    Coupled job job' (changeStream f) (changeStream f') Q d d' :=
  h

theorem coupled_changeLayout {Q : Unit → Unit → Draft → Draft → Prop} {f f' : Layout → Layout}
    (h : Q () () { d with layout := f d.layout } { d' with layout := f' d'.layout }) :
    Coupled job job' (changeLayout f) (changeLayout f') Q d d' :=
  h

theorem coupled_tell {Q : Nat → Nat → Draft → Draft → Prop}
    (h : Q d.stream.position d'.stream.position d d') : Coupled job job' tell tell Q d d' :=
  h

theorem coupled_computesOffsets_bind {f : Bool → Writer α} {f' : Bool → Writer β}
    (h : Coupled job job' (f job.options.computeOffsets) (f' job'.options.computeOffsets) Q d d') :
    Coupled job job' (computesOffsets >>= f) (computesOffsets >>= f') Q d d' :=
  h

theorem Coupled.ite {c : Prop} [Decidable c] {v : Writer α} {v' : Writer β}
    (h : c → Coupled job job' w w' Q d d') (h' : ¬ c → Coupled job job' v v' Q d d') :
    Coupled job job' (if c then w else v) (if c then w' else v') Q d d' := by
  by_cases hc : c
  · rw [if_pos hc, if_pos hc]
    exact h hc
  · rw [if_neg hc, if_neg hc]
    exact h' hc

/-- The rule for loops: the elements that the two runs take correspond, and every turn keeps `I`. -/
theorem coupled_foldlM {f : γ → α → Writer γ} {f' : δ → β → Writer δ} {R : α → β → Prop}
    {I : γ → δ → Draft → Draft → Prop} {xs : Array α} {xs' : Array β}
    (hxs : List.Forall₂ R xs.toList xs'.toList)
    (hstep : ∀ b b' x x' e e', R x x' → I b b' e e' → Coupled job job' (f b x) (f' b' x') I e e')
    {b : γ} {b' : δ} (h : I b b' d d') :
    Coupled job job' (xs.foldlM f b) (xs'.foldlM f' b') I d d' := by
  rw [← Array.foldlM_toList, ← Array.foldlM_toList]
  generalize xs.toList = xs, xs'.toList = xs' at hxs
  induction hxs generalizing b b' d d' with
  | nil => exact coupled_pure h
  | cons hx _ ih =>
    rw [List.foldlM_cons, List.foldlM_cons]
    exact (hstep b b' _ _ d d' hx h).bind fun _ _ _ _ => ih

theorem coupled_forM {f : α → Writer PUnit} {f' : β → Writer PUnit} {R : α → β → Prop}
    {I : Draft → Draft → Prop} {xs : Array α} {xs' : Array β}
    (hxs : List.Forall₂ R xs.toList xs'.toList)
    (hstep : ∀ x x' e e', R x x' → I e e' →
      Coupled job job' (f x) (f' x') (fun _ _ => I) e e') (h : I d d') :
    Coupled job job' (xs.forM f) (xs'.forM f') (fun _ _ => I) d d' := by
  change Coupled job job' (xs.foldlM (fun _ x => f x) ⟨⟩) (xs'.foldlM (fun _ x => f' x) ⟨⟩) _ d d'
  exact coupled_foldlM hxs (fun _ _ x x' e e' hx => hstep x x' e e' hx) h

/-- After equal results both runs go on with one and the same value. -/
theorem Coupled.onward {v v' : Writer γ} {f : γ → Writer α} {f' : γ → Writer β}
    {R : Draft → Draft → Prop} (h : Coupled job job' v v' (fun a b e e' => a = b ∧ R e e') d d')
    (hf : ∀ a e e', R e e' → Coupled job job' (f a) (f' a) Q e e') :
    Coupled job job' (v >>= f) (v' >>= f') Q d d' :=
  h.bind fun a _ e e' hab => hab.1 ▸ hf a e e' hab.2

/-! ## Runs that fail together -/

/-- Started from `d` and `d'`, the two steps either succeed with results of which `Q` holds together
with their drafts, or both fail. -/
def Together (job job' : Job) (w : Writer α) (w' : Writer β) (Q : α → β → Draft → Draft → Prop)
    (d d' : Draft) : Prop :=
  match w job d, w' job' d' with
  | .ok a e, .ok b e' => Q a b e e'
  | .error _ _, .error _ _ => True
  | _, _ => False

theorem Coupled.together (h : Coupled job job' w w' Q d d') : Together job job' w w' Q d d' := by
  unfold Coupled at h
  unfold Together
  split at h
  · exact h
  · trivial
  · exact h.elim

theorem Together.bind {v : Writer γ} {v' : Writer δ} {f : γ → Writer α} {f' : δ → Writer β}
    {R : γ → δ → Draft → Draft → Prop} (h : Together job job' v v' R d d')
    (hf : ∀ a b e e', R a b e e' → Together job job' (f a) (f' b) Q e e') :
    Together job job' (v >>= f) (v' >>= f') Q d d' := by
  unfold Together at h ⊢
  rw [run_bind, run_bind]
  split at h
  · rename_i hv hv'
    rw [hv, hv']
    exact hf _ _ _ _ h
  · rename_i hv hv'
    rw [hv, hv']
    trivial
  · exact h.elim

/-- Two steps that never fail run together. -/
theorem together_of_establishes {P : α → Draft → Prop} {P' : β → Draft → Prop}
    (h : Establishes job (fun _ => False) w P d) (h' : Establishes job' (fun _ => False) w' P' d')
    (hQ : ∀ a b e e', P a e → P' b e' → Q a b e e') : Together job job' w w' Q d d' := by
  unfold Establishes at h h'
  unfold Together
  split at h
  · split at h'
    · rename_i hw _ _ _ hw'
      rw [hw, hw']
      exact hQ _ _ _ _ h h'
    · exact h'.elim
  · exact h.elim

/-- Two steps that never succeed run together. -/
theorem together_of_refuted (h : Establishes job (fun _ => True) w (fun _ _ => False) d)
    (h' : Establishes job' (fun _ => True) w' (fun _ _ => False) d') :
    Together job job' w w' Q d d' := by
  unfold Establishes at h h'
  unfold Together
  split at h
  · exact h.elim
  · split at h'
    · exact h'.elim
    · rename_i hw _ _ _ hw'
      rw [hw, hw']
      trivial

end Writer

end DexGraph
