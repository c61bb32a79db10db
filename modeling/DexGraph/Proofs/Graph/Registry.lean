import DexGraph.Layout
import DexGraph.Proofs.Graph.OffsetIndex
import DexGraph.Proofs.Layout.Places

/-!
# Collections with their indexes

A registry is a collection together with the indexes under whose keys its entities are known, any
number of them and with keys of any types. Entities are added with or without a key, and the order
is changed by naming entities or by the keys of an index. `Registry.Valid.perform` says what one
such action preserves and `Registry.Valid.run` what any number of them do: nothing is lost, no
reference comes to name another entity, and every entity has at most one key in an index.
`Registry.entities_permanent` puts this together.
-/

namespace DexGraph

/-- A collection, the indexes that are used with it, and the places of its entities. -/
structure Registry (s : Section) {ι : Type} (κ : ι → Type) [∀ i, Ord (κ i)] where
  entities : Collection s
  index : (i : ι) → OffsetIndex (κ i)
  layout : Layout

namespace Registry

/-- The ways in which a registry is changed. -/
inductive Action (s : Section) {ι : Type} (κ : ι → Type)
  /-- An entity is added without a key. -/
  | add (x : s.Content)
  /-- An entity is added under a key, and its offset kept if that is wanted. In an index of offsets
  the key is the offset itself. -/
  | register (i : ι) (key : κ i) (offset : UInt32) (keep : Bool) (x : s.Content)
  /-- Some entities are put first. -/
  | reorder (first : Array (Ref s))
  /-- The entities of an index are put first, in the order of their keys. -/
  | sort (i : ι)

variable {s : Section} {ι : Type} {κ : ι → Type} [∀ i, Ord (κ i)] [DecidableEq ι]

/-- The entity that an action brings. -/
def Action.entity? : Action s κ → Option s.Content
  | .add x => some x
  | .register _ _ _ _ x => some x
  | .reorder _ => none
  | .sort _ => none

/-- The registry without entities. -/
def empty (s : Section) (κ : ι → Type) [∀ i, Ord (κ i)] (layout : Layout) : Registry s κ :=
  ⟨∅, fun _ => ∅, layout⟩

/-- Performs an action. If an entity is added the reference to it is given out; an action that fails
changes nothing. -/
def perform (a : Registry s κ) : Action s κ → Except Error (Option (Ref s)) × Registry s κ
  | .add x =>
    let (r, c) := a.entities.add x
    (.ok (some r), { a with entities := c })
  | .register i key offset keep x =>
    match (a.index i).register a.entities key offset x with
    | .ok (r, index, c) =>
      (.ok (some r), ⟨c, Function.update a.index i index, a.layout.captureOffset keep r offset⟩)
    | .error e => (.error e, a)
  | .reorder first => (.ok none, { a with entities := a.entities.reorder first })
  | .sort i => (.ok none, { a with entities := (a.index i).sort a.entities })

/-- Performs one action after the other. -/
def run (a : Registry s κ) (actions : List (Action s κ)) : Registry s κ :=
  actions.foldl (fun a action => (a.perform action).2) a

@[simp] theorem run_nil (a : Registry s κ) : a.run [] = a := rfl

@[simp] theorem run_cons (a : Registry s κ) (action : Action s κ) (rest : List (Action s κ)) :
    a.run (action :: rest) = (a.perform action).2.run rest := rfl

theorem run_append (a : Registry s κ) (before after : List (Action s κ)) :
    a.run (before ++ after) = (a.run before).run after :=
  List.foldl_append

/-- An entity with its place. -/
def entry? (a : Registry s κ) (r : Ref s) : Option (s.Content × Place) :=
  (a.entities.get? r).map (·, a.layout.place r)

/-- Every entity is listed once, and every key of an index is that of another entity. -/
structure Valid (a : Registry s κ) : Prop where
  coherent : a.entities.Coherent
  known : ∀ i key (r : Ref s), (a.index i).get? key = some r → r.pos < a.entities.size
  distinct : ∀ i key key' (r : Ref s), (a.index i).get? key = some r →
    (a.index i).get? key' = some r → key = key'

/-- The second registry has what the first one has, under the same references. -/
def Keeps (a a' : Registry s κ) : Prop :=
  ∀ r e, a.entry? r = some e → a'.entry? r = some e

variable {a a' : Registry s κ}

omit [DecidableEq ι] in
theorem Keeps.trans {a'' : Registry s κ} (h : a.Keeps a') (h' : a'.Keeps a'') : a.Keeps a'' :=
  fun r e he => h' r e (h r e he)

omit [DecidableEq ι] in
/-- Adding an entity keeps those that are there, whatever place the new one has. -/
theorem Valid.keeps_add (h : a.Valid) (x : s.Content) {index : (i : ι) → OffsetIndex (κ i)}
    {layout : Layout}
    (hplace : ∀ r, r ≠ (a.entities.add x).1 → layout.place r = a.layout.place r) :
    a.Keeps ⟨(a.entities.add x).2, index, layout⟩ := by
  intro r e he
  obtain ⟨y, hy, rfl⟩ := Option.map_eq_some_iff.mp he
  have hne : r ≠ (a.entities.add x).1 := by
    rintro rfl
    have hpos : (a.entities.add x).1.pos = a.entities.size := Ref.pos_ofPos h.coherent.size_lt
    exact absurd (Array.getElem?_eq_some_iff.mp hy).1 (by rw [hpos]; exact Nat.lt_irrefl _)
  unfold entry?
  rw [Collection.get?_add h.coherent.size_lt, if_neg hne, hy, hplace r hne]
  rfl

/-- The keys stay those of different entities when an entity is added under a new key. -/
theorem Valid.register (h : a.Valid) {x : s.Content} (hsize : a.entities.size + 1 < 2 ^ 32) {i : ι}
    {key : κ i} {index : OffsetIndex (κ i)} (hself : index.get? key = some (a.entities.add x).1)
    (hother : ∀ key', key' ≠ key → index.get? (s := s) key' = (a.index i).get? key')
    (layout : Layout) :
    Valid ⟨(a.entities.add x).2, Function.update a.index i index, layout⟩ := by
  have hpos : (a.entities.add x).1.pos = a.entities.size := Ref.pos_ofPos h.coherent.size_lt
  refine ⟨h.coherent.add hsize x, fun j k r hk => ?_, fun j k k' r hk hk' => ?_⟩
  · have hk : (Function.update a.index i index j).get? k = some r := hk
    rw [Collection.size_add]
    by_cases hj : j = i
    · subst hj
      rw [Function.update_self] at hk
      by_cases hkey : k = key
      · subst hkey
        cases hself.symm.trans hk
        exact hpos ▸ Nat.lt_succ_self _
      · exact Nat.lt_succ_of_lt (h.known j k r ((hother k hkey).symm.trans hk))
    · rw [Function.update_of_ne hj] at hk
      exact Nat.lt_succ_of_lt (h.known j k r hk)
  · by_cases hj : j = i
    · subst hj
      simp only [Function.update_self] at hk hk'
      -- What is known under another key is an entity that was there before.
      have hold {k : κ j} (hkey : k ≠ key) (hk : index.get? k = some r) :
          r ≠ (a.entities.add x).1 := by
        rintro rfl
        exact absurd (h.known j k _ ((hother k hkey).symm.trans hk)) (by rw [hpos]; omega)
      by_cases hkey : k = key <;> by_cases hkey' : k' = key
      · exact hkey.trans hkey'.symm
      · exact absurd (Option.some.inj ((hkey ▸ hk).symm.trans hself)) (hold hkey' hk')
      · exact absurd (Option.some.inj ((hkey' ▸ hk').symm.trans hself)) (hold hkey hk)
      · exact h.distinct j k k' r ((hother k hkey).symm.trans hk) ((hother k' hkey').symm.trans hk')
    · simp only [Function.update_of_ne hj] at hk hk'
      exact h.distinct j k k' r hk hk'

/-! ## One action -/

/-- A registration under a key that is taken. -/
theorem perform_register_taken [∀ i, Std.TransOrd (κ i)] {i : ι} {key : κ i} {r : Ref s}
    (h : (a.index i).get? key = some r) (offset : UInt32) (keep : Bool) (x : s.Content) :
    a.perform (.register i key offset keep x) = (.error (.duplicateItem s offset), a) := by
  simp only [perform, OffsetIndex.register_of_get?_eq_some h]

section Perform

variable [∀ i, Std.TransOrd (κ i)] [∀ i, Std.LawfulEqOrd (κ i)]

/-- A registration under a key that is new. -/
theorem perform_register_new {i : ι} {key : κ i}
    (h : ((a.index i).get? key : Option (Ref s)) = none) (offset : UInt32) (keep : Bool)
    (x : s.Content) : ∃ index : OffsetIndex (κ i),
      a.perform (.register i key offset keep x) = (.ok (some (a.entities.add x).1),
        ⟨(a.entities.add x).2, Function.update a.index i index,
          a.layout.captureOffset keep (a.entities.add x).1 offset⟩) ∧
      (index.get? key : Option (Ref s)) = some (a.entities.add x).1 ∧
      ∀ key', key' ≠ key → (index.get? key' : Option (Ref s)) = (a.index i).get? key' := by
  classical
  obtain ⟨index, hregister, hget⟩ :=
    OffsetIndex.register_of_get?_eq_none (c := a.entities) h offset x
  exact ⟨index, by simp only [perform, hregister], (hget key).trans (if_pos rfl),
    fun key' hne => (hget key').trans (if_neg hne)⟩

/-- What an action does: it adds an entity, with or without a key, or changes the order, or nothing
at all. -/
theorem perform_cases (a : Registry s κ) (action : Action s κ) :
    (∃ x, action = .add x ∧ a.perform action =
      (.ok (some (a.entities.add x).1), { a with entities := (a.entities.add x).2 })) ∨
    (∃ i key offset keep x index, action = .register i key offset keep x ∧
      (a.index i).get? (s := s) key = none ∧
      a.perform action = (.ok (some (a.entities.add x).1),
        ⟨(a.entities.add x).2, Function.update a.index i index,
          a.layout.captureOffset keep (a.entities.add x).1 offset⟩) ∧
      index.get? key = some (a.entities.add x).1 ∧
      ∀ key', key' ≠ key → index.get? (s := s) key' = (a.index i).get? key') ∨
    (∃ first, action.entity? = none ∧
      a.perform action = (.ok none, { a with entities := a.entities.reorder first })) ∨
    ∃ e, a.perform action = (.error e, a) := by
  cases action with
  | add x => exact .inl ⟨x, rfl, rfl⟩
  | register i key offset keep x =>
    cases hkey : (a.index i).get? (s := s) key with
    | none =>
      obtain ⟨index, hperform, hself, hother⟩ := perform_register_new hkey offset keep x
      exact .inr (.inl ⟨i, key, offset, keep, x, index, rfl, hkey, hperform, hself, hother⟩)
    | some r => exact .inr (.inr (.inr ⟨_, perform_register_taken hkey offset keep x⟩))
  | reorder first => exact .inr (.inr (.inl ⟨first, rfl, rfl⟩))
  | sort i => exact .inr (.inr (.inl ⟨_, rfl, rfl⟩))

/-- Actions lose no entities. -/
theorem size_le_perform (a : Registry s κ) (action : Action s κ) :
    a.entities.size ≤ (a.perform action).2.entities.size := by
  obtain ⟨x, -, h⟩ | ⟨i, key, offset, keep, x, index, -, -, h, -⟩ | ⟨first, -, h⟩ | ⟨e, h⟩ :=
    a.perform_cases action <;> rw [h]
  · simp
  · simp
  · exact Nat.le_of_eq (congrArg Array.size (a.entities.items_reorder first).symm)

/-- An action keeps a registry valid. -/
theorem Valid.perform (h : a.Valid) {action : Action s κ}
    (hsize : (a.perform action).2.entities.size < 2 ^ 32) : (a.perform action).2.Valid := by
  obtain ⟨x, -, hx⟩ | ⟨i, key, offset, keep, x, index, -, -, hx, hself, hother⟩ |
    ⟨first, -, hx⟩ | ⟨e, hx⟩ := a.perform_cases action <;> rw [hx] at hsize ⊢
  · simp only [Collection.size_add] at hsize
    refine ⟨h.coherent.add hsize x, fun i key r hkey => ?_, h.distinct⟩
    rw [Collection.size_add]
    exact Nat.lt_succ_of_lt (h.known i key r hkey)
  · simp only [Collection.size_add] at hsize
    exact h.register hsize hself hother _
  · exact ⟨h.coherent.reorder first, h.known, h.distinct⟩
  · exact h

/-- An action changes no entity. -/
theorem Valid.keeps_perform (h : a.Valid) (action : Action s κ) :
    a.Keeps (a.perform action).2 := by
  obtain ⟨x, -, hx⟩ | ⟨i, key, offset, keep, x, index, -, -, hx, -⟩ | ⟨first, -, hx⟩ | ⟨e, hx⟩ :=
    a.perform_cases action <;> rw [hx]
  · exact h.keeps_add x fun r _ => rfl
  · exact h.keeps_add x fun r hr => a.layout.place_captureOffset hr offset
  · exact fun r e he => he
  · exact fun r e he => he

/-- The reference that is given out for an entity names it, and named nothing before. -/
theorem Valid.get?_perform (h : a.Valid) {action : Action s κ} {x : s.Content} {r : Ref s}
    (hx : action.entity? = some x) (hr : (a.perform action).1 = .ok (some r)) :
    a.entry? r = none ∧ (a.perform action).2.entities.get? r = some x := by
  have hnew (x : s.Content) : a.entry? (a.entities.add x).1 = none := by
    have hpos : (a.entities.add x).1.pos = a.entities.size := Ref.pos_ofPos h.coherent.size_lt
    unfold entry? Collection.get?
    rw [hpos, Collection.size, Array.getElem?_eq_none (Nat.le_refl _)]
    rfl
  have hself (x : s.Content) : (a.entities.add x).2.get? (a.entities.add x).1 = some x := by
    rw [Collection.get?_add h.coherent.size_lt, if_pos rfl]
  obtain ⟨y, rfl, hy⟩ | ⟨i, key, offset, keep, y, index, rfl, -, hy, -⟩ | ⟨first, hnone, -⟩ |
    ⟨e, hy⟩ := a.perform_cases action
  · cases hx
    rw [hy] at hr ⊢
    cases hr
    exact ⟨hnew x, hself x⟩
  · cases hx
    rw [hy] at hr ⊢
    cases hr
    exact ⟨hnew x, hself x⟩
  · rw [hnone] at hx
    cases hx
  · rw [hy] at hr
    cases hr

/-! ## Any number of actions -/

theorem size_le_run (a : Registry s κ) (actions : List (Action s κ)) :
    a.entities.size ≤ (a.run actions).entities.size := by
  induction actions generalizing a with
  | nil => exact Nat.le_refl _
  | cons action rest ih => exact Nat.le_trans (a.size_le_perform action) (ih _)

/-- Actions keep a registry valid and change no entity. -/
theorem Valid.run (h : a.Valid) {actions : List (Action s κ)}
    (hsize : (a.run actions).entities.size < 2 ^ 32) :
    (a.run actions).Valid ∧ a.Keeps (a.run actions) := by
  induction actions generalizing a with
  | nil => exact ⟨h, fun r e he => he⟩
  | cons action rest ih =>
    rw [run_cons] at hsize ⊢
    obtain ⟨hvalid, hkeeps⟩ := ih (h.perform (Nat.lt_of_le_of_lt (size_le_run _ rest) hsize)) hsize
    exact ⟨hvalid, (h.keeps_perform action).trans hkeeps⟩

omit [DecidableEq ι] [∀ i, Std.TransOrd (κ i)] [∀ i, Std.LawfulEqOrd (κ i)] in
theorem valid_empty (layout : Layout) : (empty s κ layout).Valid where
  coherent := Collection.coherent_empty
  known _ _ _ h := by cases h
  distinct _ _ _ _ h := by cases h

/-- A collection with its indexes never loses, duplicates or moves an entity, whatever is done to
it. Its order lists every slot once. What is there stays there with its place, and the reference
that is given out for an entity is new and names it for good. Naming entities puts those that exist
first, each where it is named first, and the others behind them as they were; doing so again changes
nothing. Sorting puts the entities of an index first, in ascending order of their keys. In one index
different keys are those of different entities; a key that is taken is refused without any change,
and a key that is new is entered. -/
theorem entities_permanent (layout : Layout) (actions : List (Action s κ))
    (hsize : ((empty s κ layout).run actions).entities.size < 2 ^ 32) :
    ∃ a : Registry s κ, (empty s κ layout).run actions = a ∧
      (a.entities.order.toList.map Ref.pos).Perm (List.range a.entities.size) ∧
      (∀ before after, actions = before ++ after → ((empty s κ layout).run before).Keeps a) ∧
      (∀ before action after x r, actions = before ++ action :: after → action.entity? = some x →
        (((empty s κ layout).run before).perform action).1 = .ok (some r) →
          Registry.entry? ((empty s κ layout).run before) r = none ∧ a.entities.get? r = some x) ∧
      (∀ first : Array (Ref s),
        (a.entities.reorder first).order.toList =
          (first.toList.filter fun r => r.pos < a.entities.size).eraseDups ++
            a.entities.order.toList.filter (· ∉ first) ∧
        (a.entities.reorder first).reorder first = a.entities.reorder first) ∧
      (∀ i, ∃ entries : List (κ i × Ref s),
        entries.Pairwise (fun e e' => compare e.1 e'.1 = .lt) ∧
        (∀ e, e ∈ entries ↔ (a.index i).get? e.1 = some e.2) ∧
        ((a.index i).sort a.entities).order.toList = entries.map Prod.snd ++
          a.entities.order.toList.filter (· ∉ entries.map Prod.snd)) ∧
      (∀ i key key' (r : Ref s), (a.index i).get? key = some r → (a.index i).get? key' = some r →
        key = key') ∧
      ∀ i key offset keep x,
        (∀ r : Ref s, (a.index i).get? key = some r → (∃ y, a.entities.get? r = some y) ∧
          a.perform (.register i key offset keep x) = (.error (.duplicateItem s offset), a)) ∧
        ((a.index i).get? (s := s) key = none → ∃ r a',
          a.perform (.register i key offset keep x) = (.ok (some r), a') ∧
          (a'.index i).get? key = some r ∧ (keep → (a'.layout.place r).offset = some offset)) := by
  obtain ⟨hvalid, -⟩ := (valid_empty layout).run hsize
  -- What holds at the end of a run holds of every part of it that comes first.
  have hbefore {before after : List (Action s κ)} (hsplit : actions = before ++ after) :
      ((empty s κ layout).run before).Valid ∧
        ((empty s κ layout).run before).Keeps ((empty s κ layout).run actions) := by
    rw [hsplit, run_append] at hsize ⊢
    obtain ⟨hv, -⟩ := (valid_empty layout).run (Nat.lt_of_le_of_lt (size_le_run _ after) hsize)
    exact ⟨hv, (hv.run hsize).2⟩
  refine ⟨_, rfl, hvalid.coherent.order_perm, fun before after hsplit => (hbefore hsplit).2,
    fun before action after x r hsplit hx hr => ?_, fun first => ?_, fun i => ?_, hvalid.distinct,
    fun i key offset keep x => ⟨fun r hkey => ?_, fun hkey => ?_⟩⟩
  · obtain ⟨hnew, hget⟩ := (hbefore hsplit).1.get?_perform hx hr
    refine ⟨hnew, ?_⟩
    have hsplit' : actions = (before ++ [action]) ++ after := by simpa using hsplit
    have hkeeps := (hbefore hsplit').2 r (x, _) <| by
      rw [run_append]
      exact congrArg (Option.map _) hget
    obtain ⟨y, hy, heq⟩ := Option.map_eq_some_iff.mp hkeeps
    exact hy.trans (congrArg (some ∘ Prod.fst) heq)
  · exact ⟨Collection.toList_order_reorder hvalid.coherent first,
      Collection.reorder_reorder hvalid.coherent first⟩
  · exact ⟨_, OffsetIndex.pairwise_entries _, fun e => OffsetIndex.mem_entries,
      OffsetIndex.toList_order_sort hvalid.coherent (hvalid.distinct i) (hvalid.known i)⟩
  · exact ⟨⟨_, Array.getElem?_eq_getElem (hvalid.known i key r hkey)⟩,
      perform_register_taken hkey offset keep x⟩
  · obtain ⟨index, hperform, hself, -⟩ := perform_register_new hkey offset keep x
    refine ⟨_, _, hperform, ?_, fun hkeep => ?_⟩
    · simpa using hself
    · simp [hkeep, Layout.place_captureOffset_self]

end Perform

/-- Entities with keys in two indexes and one without a key, a key that is taken, references that
repeat or name nothing, and an index that knows some of the entities. -/
def mixedActions : List (Action .typeId fun _ : Bool => UInt32) :=
  [.register true 0x300 0x300 true ⟨⟨7⟩⟩, .register false 0x40 0x90 false ⟨⟨8⟩⟩, .add ⟨⟨9⟩⟩,
    .register true 0x100 0x100 true ⟨⟨6⟩⟩, .register true 0x300 0x300 true ⟨⟨5⟩⟩,
    .reorder #[⟨2⟩, ⟨9⟩, ⟨2⟩], .sort true]

theorem entities_permanent_mixedActions : ∃ a : Registry .typeId fun _ : Bool => UInt32,
    (empty _ _ .empty).run mixedActions = a ∧ a.entities.size < 2 ^ 32 ∧
      (a.entities.order.toList.map Ref.pos).Perm (List.range a.entities.size) ∧
      a.entities.order.toList = [⟨3⟩, ⟨0⟩, ⟨2⟩, ⟨1⟩] ∧ a.entities.get? ⟨2⟩ = some ⟨⟨9⟩⟩ ∧
      a.perform (.register true 0x300 0x301 true ⟨⟨5⟩⟩) =
        (.error (.duplicateItem .typeId 0x301), a) := by
  have hsize : ((empty _ _ .empty).run mixedActions).entities.size < 2 ^ 32 := by decide +kernel
  obtain ⟨_, rfl, hperm, -, hnamed, -, -, -, hkeys⟩ :=
    entities_permanent .empty mixedActions hsize
  refine ⟨_, rfl, hsize, hperm, by decide +kernel, ?_, ?_⟩
  · refine (hnamed (mixedActions.take 2) (.add ⟨⟨9⟩⟩) (mixedActions.drop 3) ⟨⟨9⟩⟩ ⟨2⟩ rfl rfl ?_).2
    rfl
  · exact ((hkeys true 0x300 0x301 true ⟨⟨5⟩⟩).1 ⟨0⟩ (by decide +kernel)).2

end Registry

end DexGraph
