import DexGraph.Dex
import DexGraph.Proofs.Codec.ValueRecovery

/-!
# What a step of assembling establishes

`Build.Establishes source E b Q a` says that the step `b`, started from the assembly `a`, either
succeeds and then `Q` holds of its result and its assembly, or fails with an error that `E` admits.
There is one equivalence for every way of building steps. A step that reads is one that is run from
a position.
-/

namespace DexGraph

namespace Build

variable {α β : Type} {source : Source} {E : Error → Prop} {a : Assembly}

/-- The second of two steps is taken where the first has succeeded. -/
theorem run_bind (b : Build β) (f : β → Build α) (source : Source) (a : Assembly) :
    (b >>= f) source a = match b source a with
      | .ok out => f out.1 source out.2
      | .error e => .error e := by
  change Except.bind (b source a) (fun out => f out.1 source out.2) = _
  cases b source a <;> rfl

/-- Started from `a`, the step either succeeds with what satisfies `Q`, or fails with an error that
`E` admits. -/
def Establishes (source : Source) (E : Error → Prop) (b : Build α) (Q : α → Assembly → Prop)
    (a : Assembly) : Prop :=
  match b source a with
  | .ok out => Q out.1 out.2
  | .error e => E e

theorem Establishes.of_ok {b : Build α} {Q : α → Assembly → Prop} {x : α} {a' : Assembly}
    (h : Establishes source E b Q a) (hb : b source a = .ok (x, a')) : Q x a' := by
  unfold Establishes at h
  rwa [hb] at h

theorem Establishes.of_error {b : Build α} {Q : α → Assembly → Prop} {e : Error}
    (h : Establishes source E b Q a) (hb : b source a = .error e) : E e := by
  unfold Establishes at h
  rwa [hb] at h

theorem Establishes.mono {b : Build α} {Q Q' : α → Assembly → Prop}
    (h : Establishes source E b Q a) (hQ : ∀ x a', Q x a' → Q' x a') :
    Establishes source E b Q' a := by
  unfold Establishes at h ⊢
  cases hb : b source a with
  | ok out =>
    rw [hb] at h
    exact hQ out.1 out.2 h
  | error e => rwa [hb] at h

theorem Establishes.mono_error {E' : Error → Prop} {b : Build α} {Q : α → Assembly → Prop}
    (h : Establishes source E b Q a) (hE : ∀ e, E e → E' e) : Establishes source E' b Q a := by
  unfold Establishes at h ⊢
  cases hb : b source a with
  | ok out => rwa [hb] at h
  | error e =>
    rw [hb] at h
    exact hE e h

/-- Two things that a step establishes hold together. -/
theorem Establishes.and {E' : Error → Prop} {b : Build α} {Q Q' : α → Assembly → Prop}
    (h : Establishes source E b Q a) (h' : Establishes source E' b Q' a) :
    Establishes source (fun e => E e ∧ E' e) b (fun x a' => Q x a' ∧ Q' x a') a := by
  unfold Establishes at h h' ⊢
  cases hb : b source a with
  | ok out =>
    rw [hb] at h h'
    exact ⟨h, h'⟩
  | error e =>
    rw [hb] at h h'
    exact ⟨h, h'⟩

section Rules

variable {Q : α → Assembly → Prop}

theorem establishes_pure {x : α} : Establishes source E (pure x) Q a ↔ Q x a :=
  Iff.rfl

theorem establishes_bind {b : Build β} {f : β → Build α} :
    Establishes source E (b >>= f) Q a ↔
      Establishes source E b (fun x => Establishes source E (f x) Q) a := by
  unfold Establishes
  rw [run_bind]
  cases b source a <;> rfl

/-- What a first step establishes is what a second one starts from. -/
theorem Establishes.bind {b : Build β} {f : β → Build α} {R : β → Assembly → Prop}
    (h : Establishes source E b R a) (hf : ∀ x a', R x a' → Establishes source E (f x) Q a') :
    Establishes source E (b >>= f) Q a :=
  establishes_bind.mpr (h.mono hf)

theorem establishes_read {Q : Source → Assembly → Prop} :
    Establishes source E read Q a ↔ Q source a :=
  Iff.rfl

theorem establishes_get {Q : Assembly → Assembly → Prop} : Establishes source E get Q a ↔ Q a a :=
  Iff.rfl

theorem establishes_ofExcept {x : Except Error α} :
    Establishes source E (ofExcept x) Q a ↔
      (∀ b, x = .ok b → Q b a) ∧ ∀ e, x = .error e → E e := by
  cases x with
  | ok b =>
    change Q b a ↔ _
    simp
  | error e =>
    change E e ↔ _
    simp

theorem establishes_refuse {defect : Defect} :
    Establishes source E (refuse defect : Build α) Q a ↔ E (.malformed defect) :=
  Iff.rfl

theorem establishes_modify {Q : PUnit → Assembly → Prop} {f : Assembly → Assembly} :
    Establishes source E (modify f) Q a ↔ Q ⟨⟩ (f a) :=
  Iff.rfl

theorem establishes_changeGraph {Q : Unit → Assembly → Prop} {f : Graph → Graph} :
    Establishes source E (changeGraph f) Q a ↔ Q () { a with graph := f a.graph } :=
  Iff.rfl

theorem establishes_changeLayout {Q : Unit → Assembly → Prop} {f : Layout → Layout} :
    Establishes source E (changeLayout f) Q a ↔ Q () { a with layout := f a.layout } :=
  Iff.rfl

theorem establishes_known? {s : Section} {key : ItemKey} {Q : Option (Ref s) → Assembly → Prop} :
    Establishes source E (known? s key) Q a ↔ Q ((a.known.get s).get? key) a :=
  Iff.rfl

theorem establishes_ite {c : Prop} [Decidable c] {b b' : Build α} :
    Establishes source E (if c then b else b') Q a ↔
      (c → Establishes source E b Q a) ∧ (¬ c → Establishes source E b' Q a) := by
  split <;> simp_all

end Rules

/-- The rule for a step that is taken once for each element: every turn keeps `I`. -/
theorem establishes_forM {γ : Type} {f : γ → Build PUnit} {I : Assembly → Prop} {xs : List γ}
    (hstep : ∀ x ∈ xs, ∀ a, I a → Establishes source E (f x) (fun _ => I) a) (h : I a) :
    Establishes source E (xs.forM f) (fun _ => I) a := by
  induction xs generalizing a with
  | nil => exact h
  | cons x rest ih =>
    refine (hstep x List.mem_cons_self a h).bind fun _ a' h' => ?_
    exact ih (fun y hy => hstep y (List.mem_cons_of_mem x hy)) h'

theorem establishes_forM_array {γ : Type} {f : γ → Build PUnit} {I : Assembly → Prop}
    {xs : Array γ} (hstep : ∀ x ∈ xs, ∀ a, I a → Establishes source E (f x) (fun _ => I) a)
    (h : I a) : Establishes source E (xs.forM f) (fun _ => I) a := by
  have hlist : xs.forM f = xs.toList.forM f := by
    cases xs
    simp
  rw [hlist]
  exact establishes_forM (fun x hx => hstep x (Array.mem_toList_iff.mp hx)) h

/-! ## Steps that read -/

section Reading

variable {Q : α × Nat → Assembly → Prop} {p : Nat}

theorem establishes_run_pure {x : α} :
    Establishes source E ((pure x : Reading α).run p) Q a ↔ Q (x, p) a :=
  Iff.rfl

theorem establishes_run_bind {m : Reading β} {f : β → Reading α} :
    Establishes source E ((m >>= f).run p) Q a ↔
      Establishes source E (m.run p)
        (fun out => Establishes source E ((f out.1).run out.2) Q) a := by
  rw [StateT.run_bind]
  exact establishes_bind

theorem establishes_run_lift {b : Build α} :
    Establishes source E ((liftM b : Reading α).run p) Q a ↔
      Establishes source E b (fun x => Q (x, p)) a := by
  change Establishes source E (b >>= fun x => pure (x, p)) Q a ↔ _
  exact establishes_bind

theorem establishes_run_decodeWith {d : Graph → Decoder α} :
    Establishes source E ((Reading.decodeWith d).run p) Q a ↔
      (∀ x q, (d a.graph).runAt source.data p = .ok (x, q) → Q (x, q) a) ∧
        ∀ e, (d a.graph).runAt source.data p = .error e → E e := by
  change Establishes source E (ofExcept (d a.graph source.data p)) Q a ↔ _
  rw [establishes_ofExcept, Prod.forall]
  rfl

end Reading

/-! ## What comes of a step -/

section Runs

variable {α β : Type} {source : Source} {a : Assembly} {p : Nat} {f : β → Reading α}

theorem run_decodeWith {d : Graph → Decoder α} {v : α} {q : Nat}
    (h : (d a.graph).Reads source.data p v q) :
    (Reading.decodeWith d).run p source a = .ok ((v, q), a) := by
  change ((d a.graph).runAt source.data p).map (·, a) = _
  rw [h]
  rfl

/-- A decoder that is known to read a value is followed by what comes next. -/
theorem run_decodeWith_bind {d : Graph → Decoder β} {v : β} {q : Nat}
    (h : (d a.graph).Reads source.data p v q) :
    (Reading.decodeWith d >>= f).run p source a = (f v).run q source a := by
  rw [StateT.run_bind, run_bind, run_decodeWith h]

theorem run_decode_bind {d : Decoder β} {v : β} {q : Nat} (h : d.Reads source.data p v q) :
    (Reading.decode d >>= f).run p source a = (f v).run q source a :=
  run_decodeWith_bind (d := fun _ => d) h

theorem run_lift_bind {b : Build β} :
    (liftM b >>= f).run p source a = (b >>= fun x => (f x).run p) source a := by
  have hlift : (liftM b : Reading β).run p source a = (b >>= fun x => pure (x, p)) source a := rfl
  rw [StateT.run_bind, run_bind, run_bind, hlift, run_bind]
  cases b source a <;> rfl

theorem run_ofExcept_bind {x : Except Error β} {v : β} (h : x = .ok v) :
    (liftM (ofExcept x) >>= f).run p source a = (f v).run p source a := by
  rw [run_lift_bind, run_bind, h]
  rfl

theorem run_known?_bind {s : Section} {key : ItemKey} {f : Option (Ref s) → Build α} :
    (known? s key >>= f) source a = f ((a.known.get s).get? key) source a := by
  rw [run_bind]
  rfl

theorem run_resolve_bind {s : Section} {r : Ref s} {f : Ref s → Reading α}
    (h : a.graph.Has s r) :
    (liftM (resolve s r.slot) >>= f).run p source a = (f r).run p source a := by
  rw [run_lift_bind, run_bind]
  have hresolve : resolve s r.slot source a = .ok (r, a) := by
    change (a.graph.resolve s r.slot).map (·, a) = _
    rw [Graph.resolve_slot h]
    rfl
  rw [hresolve]

end Runs

end Build

/-- What an image holds is what is assembled from it and its map list. -/
theorem Dex.ofImage_eq (options : BuildOptions) (image : Image) : ofImage options image =
    match MapList.read image.data image.header.mapOffset with
    | .ok map =>
      match Build.all ⟨image.data, image.header, map, options⟩ (.start image.header) with
      | .ok out => .ok ⟨out.2.graph, out.2.layout, {}⟩
      | .error e => .error e
    | .error e => .error e := by
  change Except.bind (MapList.read image.data image.header.mapOffset) _ = _
  cases MapList.read image.data image.header.mapOffset with
  | error e => rfl
  | ok map =>
    change Except.bind (Build.all _ _) _ = _
    dsimp only
    cases Build.all ⟨image.data, image.header, map, options⟩ (.start image.header) <;> rfl

end DexGraph
