import DexGraph.Dex
import DexGraph.Proofs.Graph.Coherence
import DexGraph.Proofs.Instruction.Walk

/-!
# Cross references are exact

What `CrossReferences.refresh` finds is said without the walk through a body or the order in which
methods are looked through. A method names an entry of a table if the index of the entry is an
operand in the longest prefix of its body that can be decoded (`MethodItem.Names`); the methods
that name an entry are the registered ones of which that is true. Nothing depends on what was found
before (`Dex.findReferences_exact`).
-/

namespace DexGraph

/-- Whether a fold ends in a state with a property, if each step can only bring the property
about. -/
theorem List.foldl_iff {σ α : Type} {f : σ → α → σ} {P : σ → Prop} {Q : α → Prop}
    (h : ∀ s x, P (f s x) ↔ P s ∨ Q x) (xs : List α) (s : σ) :
    P (xs.foldl f s) ↔ P s ∨ ∃ x ∈ xs, Q x := by
  induction xs generalizing s with
  | nil => simp
  | cons x xs ih => simp [ih, h, or_assoc]

/-! ## Kinds of entries -/

/-- The kinds of entries that bodies are searched for. -/
inductive UseKind
  | string
  | type
  | field
  | method
  deriving DecidableEq, Repr

namespace UseKind

/-- The table of the entries. -/
def table : UseKind → Section
  | string => .stringId
  | type => .typeId
  | field => .fieldId
  | method => .methodId

/-- The operands that are indices into the table. -/
def operand : UseKind → OperandKind
  | string => .string
  | type => .type
  | field => .field
  | method => .method

end UseKind

/-- The entries of one kind that are named. -/
def Uses.of (u : Uses) : UseKind → Std.TreeSet UInt32
  | .string => u.strings
  | .type => u.types
  | .field => u.fields
  | .method => u.methods

/-- The methods that name each entry of one kind. -/
def CrossReferences.usersOf (x : CrossReferences) : UseKind → Users
  | .string => x.stringUsers
  | .type => x.typeUsers
  | .field => x.fieldUsers
  | .method => x.methodUsers

/-! ## Bodies -/

/-- The index of an entry is an operand in the longest prefix of the body that can be decoded. -/
def CodeItem.Names (code : CodeItem) (g : Graph) (k : UseKind) (i : UInt32) : Prop :=
  i.toNat < g.count k.table ∧ ∃ instructions, Walk.Longest code.instructions instructions ∧
    ∃ instruction ∈ instructions, ⟨k.operand, i⟩ ∈ instruction.operands

/-- The method has a body that names an entry. A native method has none. -/
def MethodItem.Names (m : MethodItem) (g : Graph) (k : UseKind) (i : UInt32) : Prop :=
  m.isNative = false ∧ ∃ r code, m.code = some r ∧ g.get? r = some code ∧ code.Names g k i

namespace Uses

variable {g : Graph} {u : Uses} {k : UseKind} {i : UInt32}

@[simp] theorem not_mem_of_empty : i ∉ ({} : Uses).of k := by
  cases k <;> exact Std.TreeSet.not_mem_emptyc

theorem mem_add {o : Operand} : i ∈ (u.add g o).of k ↔
    i ∈ u.of k ∨ o = ⟨k.operand, i⟩ ∧ i.toNat < g.count k.table := by
  obtain ⟨kind, index⟩ := o
  cases kind <;> cases k <;>
    simp [add, of, UseKind.operand, UseKind.table] <;> grind

theorem mem_ofBody {body : Array UInt16} : i ∈ (ofBody g body).of k ↔
    i.toNat < g.count k.table ∧ ∃ instruction ∈ (Walk.ofUnits body).instructions,
      ⟨k.operand, i⟩ ∈ instruction.operands := by
  have hinstruction (u : Uses) (instruction : Instruction) :
      i ∈ (instruction.operands.foldl (add g) u).of k ↔ i ∈ u.of k ∨
        ⟨k.operand, i⟩ ∈ instruction.operands ∧ i.toNat < g.count k.table := by
    refine (List.foldl_iff (P := fun u => i ∈ of u k)
      (Q := fun o => o = ⟨k.operand, i⟩ ∧ i.toNat < g.count k.table)
      (fun u o => mem_add) instruction.operands u).trans (or_congr_right ?_)
    simp
  refine (List.foldl_iff (P := fun u => i ∈ of u k) hinstruction _ {}).trans ?_
  constructor
  · rintro (h | ⟨instruction, hmem, hoperand, hlt⟩)
    · exact absurd h not_mem_of_empty
    · exact ⟨hlt, instruction, hmem, hoperand⟩
  · rintro ⟨hlt, instruction, hmem, hoperand⟩
    exact .inr ⟨instruction, hmem, hoperand, hlt⟩

end Uses

/-! ## Users -/

namespace Users

/-- Noting what a method names makes it a user of these entries, and changes nothing else. -/
theorem mem_add {users : Users} {method m : UInt32} {entries : Std.TreeSet UInt32} {i : UInt32} :
    m ∈ (users.add method entries).getD i ∅ ↔ m ∈ users.getD i ∅ ∨ m = method ∧ i ∈ entries := by
  have hstep (users : Users) (j : UInt32) :
      m ∈ Std.TreeMap.getD (users.insert j ((users.getD j ∅).insert method)) i ∅ ↔
        m ∈ users.getD i ∅ ∨ j = i ∧ m = method := by
    simp only [Std.TreeMap.getD_insert, Std.LawfulEqCmp.compare_eq_iff_eq]
    by_cases hj : j = i
    · subst hj
      simp only [if_true, Std.TreeSet.mem_insert, Std.LawfulEqCmp.compare_eq_iff_eq, true_and]
      rw [or_comm, eq_comm]
    · simp [hj]
  unfold add
  rw [Std.TreeSet.foldl_eq_foldl_toList]
  refine (List.foldl_iff (P := fun users : Users => m ∈ users.getD i ∅)
    (Q := fun j => j = i ∧ m = method) hstep entries.toList users).trans (or_congr_right ?_)
  simp [Std.TreeSet.mem_toList, and_comm]

end Users

/-! ## Registered methods -/

namespace Graph

variable {g : Graph} {l : MethodLocator} {m : UInt32} {item : MethodItem}

/-- The body of the method at a place, if the image holds one. -/
def bodyAt? (g : Graph) (l : MethodLocator) : Option CodeItem := do
  let m ← g.methodAt? l
  g.get? (← m.body?)

theorem mem_keys_methodItems : m ∈ g.methodItems.keys ↔ ∃ l, g.methodItems[m]? = some l := by
  rw [Std.TreeMap.mem_keys, Std.TreeMap.mem_iff_isSome_getElem?, Option.isSome_iff_exists]

theorem bodyOf?_eq_bodyAt? (h : g.methodItems[m]? = some l) : g.bodyOf? m = g.bodyAt? l := by
  unfold bodyOf? bodyAt? methodItem?
  rw [h]
  rfl

theorem methodItems_of_registeredIndex? (h : g.registeredIndex? l = some m) :
    g.methodItems[m]? = some l := by
  unfold registeredIndex? at h
  obtain ⟨item, -, h⟩ := Option.bind_eq_some_iff.mp h
  split at h
  · rename_i hown
    cases h
    exact hown
  · simpa using List.find?_some h

/-- A registered method is found by its place. -/
theorem exists_registeredIndex? (hl : g.methodItems[m]? = some l)
    (hitem : g.methodAt? l = some item) : ∃ i, g.registeredIndex? l = some i := by
  unfold registeredIndex?
  rw [hitem]
  dsimp only [Option.bind_eq_bind, Option.bind_some]
  split
  · exact ⟨_, rfl⟩
  · rw [← Option.isSome_iff_exists, List.find?_isSome]
    exact ⟨m, mem_keys_methodItems.mpr ⟨l, hl⟩, by simpa using hl⟩

end Graph

namespace CrossReferences

variable {g : Graph} {x : CrossReferences} {l : MethodLocator} {m i : UInt32} {item : MethodItem}
  {k : UseKind}

theorem usesOf_clear (x : CrossReferences) (hl : g.methodItems[m]? = some l) :
    (x.clear g).usesOf m = {} := by
  have hfold (keys : List UInt32) (uses : Std.TreeMap UInt32 Uses) :
      m ∈ keys ∨ uses[m]? = none → (keys.foldl Std.TreeMap.erase uses)[m]? = none := by
    induction keys generalizing uses with
    | nil => simp
    | cons key keys ih =>
      intro h
      refine ih _ ?_
      simp only [Std.TreeMap.getElem?_erase, Std.LawfulEqCmp.compare_eq_iff_eq]
      by_cases hkey : key = m
      · exact .inr (if_pos hkey)
      · rw [if_neg hkey]
        exact h.imp_left fun h => (List.mem_cons.mp h).resolve_left (Ne.symm hkey)
  have hnone := hfold g.methodItems.keys x.uses (.inl (Graph.mem_keys_methodItems.mpr ⟨l, hl⟩))
  unfold usesOf clear
  rw [Std.TreeMap.getD_eq_getD_getElem?, hnone]
  rfl

theorem usersOf_clear (x : CrossReferences) (k : UseKind) : (x.clear g).usersOf k = ∅ := by
  cases k <;> rfl

theorem usersOf_add (x : CrossReferences) (u : Uses) :
    (x.add m u).usersOf k = (x.usersOf k).add m (u.of k) := by
  cases k <;> rfl

/-- The uses of the registered method at a place are those of its body. -/
def usesOfBodyAt (g : Graph) (l : MethodLocator) : Uses :=
  match g.bodyAt? l with
  | some code => Uses.ofBody g code.instructions
  | none => {}

theorem usesOf_scan (x : CrossReferences) (method : UInt32) : (scan g x method).usesOf m =
    if method = m then ((g.bodyOf? m).map fun code => Uses.ofBody g code.instructions).getD
      (x.usesOf m) else x.usesOf m := by
  unfold scan
  by_cases hm : method = m
  · subst hm
    cases g.bodyOf? method with
    | none => simp
    | some code => simp [add, usesOf]
  · rw [if_neg hm]
    cases g.bodyOf? method with
    | none => rfl
    | some code => simp [add, usesOf, Std.TreeMap.getD_insert, hm]

/-- A registered method has been looked through, whatever was known of it before. -/
theorem usesOf_refresh (x : CrossReferences) (hl : g.methodItems[m]? = some l) :
    (x.refresh g).usesOf m = usesOfBodyAt g l := by
  have hfold (keys : List UInt32) (x : CrossReferences) :
      (keys.foldl (scan g) x).usesOf m =
        if m ∈ keys then ((g.bodyOf? m).map fun code => Uses.ofBody g code.instructions).getD
          (x.usesOf m) else x.usesOf m := by
    induction keys generalizing x with
    | nil => simp
    | cons key keys ih =>
      rw [List.foldl_cons, ih, usesOf_scan]
      by_cases hkey : key = m
      · subst hkey
        cases g.bodyOf? key <;> simp
      · simp [hkey, Ne.symm hkey]
  rw [refresh, hfold, if_pos (Graph.mem_keys_methodItems.mpr ⟨l, hl⟩), usesOf_clear x hl,
    Graph.bodyOf?_eq_bodyAt? hl]
  unfold usesOfBodyAt
  cases g.bodyAt? l <;> rfl

/-- The users of an entry are the registered methods of which the body names it. -/
theorem mem_usersOf_refresh : m ∈ ((x.refresh g).usersOf k).getD i ∅ ↔
    ∃ l, g.methodItems[m]? = some l ∧ i ∈ (usesOfBodyAt g l).of k := by
  have hstep (x : CrossReferences) (method : UInt32) :
      m ∈ ((scan g x method).usersOf k).getD i ∅ ↔ m ∈ (x.usersOf k).getD i ∅ ∨
        m = method ∧ ∃ code, g.bodyOf? m = some code ∧
          i ∈ (Uses.ofBody g code.instructions).of k := by
    unfold scan
    cases hbody : g.bodyOf? method with
    | none =>
      refine (or_iff_left ?_).symm
      rintro ⟨rfl, code, hcode, -⟩
      cases hbody.symm.trans hcode
    | some code =>
      dsimp only
      rw [usersOf_add, Users.mem_add]
      refine or_congr_right (and_congr_right ?_)
      rintro rfl
      simp [hbody]
  rw [refresh]
  refine (List.foldl_iff (P := fun x : CrossReferences => m ∈ (x.usersOf k).getD i ∅)
    hstep g.methodItems.keys (x.clear g)).trans ?_
  rw [usersOf_clear]
  constructor
  · rintro (h | ⟨_, hmem, rfl, code, hcode, hi⟩)
    · cases h
    · obtain ⟨l, hl⟩ := Graph.mem_keys_methodItems.mp hmem
      refine ⟨l, hl, ?_⟩
      rw [Graph.bodyOf?_eq_bodyAt? hl] at hcode
      simpa only [usesOfBodyAt, hcode] using hi
  · rintro ⟨l, hl, hi⟩
    refine .inr ⟨m, Graph.mem_keys_methodItems.mpr ⟨l, hl⟩, rfl, ?_⟩
    rw [Graph.bodyOf?_eq_bodyAt? hl]
    unfold usesOfBodyAt at hi
    cases hbody : g.bodyAt? l with
    | none =>
      rw [hbody] at hi
      exact absurd hi Uses.not_mem_of_empty
    | some code =>
      rw [hbody] at hi
      exact ⟨code, rfl, hi⟩

theorem usersOf_scan (x : CrossReferences) : (scan g x m).usersOf k =
    match g.bodyOf? m with
    | some code => (x.usersOf k).add m ((Uses.ofBody g code.instructions).of k)
    | none => x.usersOf k := by
  unfold scan
  cases g.bodyOf? m with
  | none => rfl
  | some code => exact usersOf_add x _

/-- The users of entries do not depend on what was found before. -/
theorem usersOf_refresh_congr (x y : CrossReferences) (g : Graph) (k : UseKind) :
    (x.refresh g).usersOf k = (y.refresh g).usersOf k := by
  have hfold (keys : List UInt32) (x y : CrossReferences) (h : x.usersOf k = y.usersOf k) :
      (keys.foldl (scan g) x).usersOf k = (keys.foldl (scan g) y).usersOf k := by
    induction keys generalizing x y with
    | nil => exact h
    | cons key keys ih => exact ih _ _ (by rw [usersOf_scan, usersOf_scan, h])
  exact hfold _ _ _ ((usersOf_clear x k).trans (usersOf_clear y k).symm)

theorem usesAt_refresh (x : CrossReferences) (hl : g.methodItems[m]? = some l)
    (hitem : g.methodAt? l = some item) : (x.refresh g).usesAt g l = usesOfBodyAt g l := by
  obtain ⟨i, hi⟩ := Graph.exists_registeredIndex? hl hitem
  unfold usesAt
  rw [hi]
  exact usesOf_refresh x (Graph.methodItems_of_registeredIndex? hi)

/-- What methods carry does not depend on what was found before. -/
theorem usesAt_refresh_congr (x y : CrossReferences) (g : Graph) (l : MethodLocator) :
    (x.refresh g).usesAt g l = (y.refresh g).usesAt g l := by
  unfold usesAt
  cases hi : g.registeredIndex? l with
  | none => rfl
  | some i =>
    have hl := Graph.methodItems_of_registeredIndex? hi
    exact (usesOf_refresh x hl).trans (usesOf_refresh y hl).symm

/-- Where a body is used there is a method. -/
theorem exists_methodAt? (h : i ∈ (usesOfBodyAt g l).of k) : ∃ item, g.methodAt? l = some item := by
  unfold usesOfBodyAt Graph.bodyAt? at h
  cases hitem : g.methodAt? l with
  | none =>
    rw [hitem] at h
    exact absurd h Uses.not_mem_of_empty
  | some item => exact ⟨item, rfl⟩

theorem mem_usesOfBodyAt (hitem : g.methodAt? l = some item) :
    i ∈ (usesOfBodyAt g l).of k ↔ item.Names g k i := by
  have hbody : g.bodyAt? l = item.body?.bind g.get? := by
    unfold Graph.bodyAt?
    rw [hitem]
    rfl
  unfold usesOfBodyAt MethodItem.Names
  rw [hbody, MethodItem.body?]
  cases hnative : item.isNative with
  | true => simp
  | false =>
    cases hcode : item.code with
    | none => simp
    | some r =>
      cases hget : g.get? r with
      | none => simp [hget]
      | some code =>
        simp [hget, Uses.mem_ofBody, CodeItem.Names, Walk.longest_iff]

end CrossReferences

namespace Dex

/-- After the cross references have been collected, the method at every place that is registered
carries exactly the entries that it names, and every entry has as its users exactly the registered
methods that carry it. Neither depends on what was collected before, and collecting once more
changes neither. -/
theorem findReferences_exact (d : Dex) :
    (∀ (m : UInt32) l item, d.graph.methodItems[m]? = some l →
      d.graph.methodAt? l = some item → ∀ k i,
      i ∈ (d.findReferences.references.usesAt d.graph l).of k ↔ item.Names d.graph k i) ∧
    (∀ k i m, m ∈ (d.findReferences.references.usersOf k).getD i ∅ ↔
      ∃ l item, d.graph.methodItems[m]? = some l ∧ d.graph.methodAt? l = some item ∧
        i ∈ (d.findReferences.references.usesAt d.graph l).of k) ∧
    (∀ earlier : CrossReferences,
      (∀ l, ({ d with references := earlier } : Dex).findReferences.references.usesAt d.graph l =
        d.findReferences.references.usesAt d.graph l) ∧
      ∀ k, ({ d with references := earlier } : Dex).findReferences.references.usersOf k =
        d.findReferences.references.usersOf k) ∧
    (∀ l, d.findReferences.findReferences.references.usesAt d.graph l =
      d.findReferences.references.usesAt d.graph l) ∧
    ∀ k, d.findReferences.findReferences.references.usersOf k =
      d.findReferences.references.usersOf k := by
  refine ⟨fun m l item hl hitem k i => ?_, fun k i m => ?_, fun earlier =>
    ⟨CrossReferences.usesAt_refresh_congr _ _ d.graph,
      CrossReferences.usersOf_refresh_congr _ _ d.graph⟩,
    CrossReferences.usesAt_refresh_congr _ _ d.graph,
    CrossReferences.usersOf_refresh_congr _ _ d.graph⟩
  · unfold findReferences
    rw [CrossReferences.usesAt_refresh _ hl hitem, CrossReferences.mem_usesOfBodyAt hitem]
  · unfold findReferences
    rw [CrossReferences.mem_usersOf_refresh]
    constructor
    · rintro ⟨l, hl, hi⟩
      obtain ⟨item, hitem⟩ := CrossReferences.exists_methodAt? hi
      exact ⟨l, item, hl, hitem, by rwa [CrossReferences.usesAt_refresh _ hl hitem]⟩
    · rintro ⟨l, item, hl, hitem, hi⟩
      exact ⟨l, hl, by rwa [CrossReferences.usesAt_refresh _ hl hitem] at hi⟩

/-- A graph with one class, whose only method names the string with index
zero and one that there is not. Its body ends within an instruction. -/
def oneCaller : Graph :=
  ({ Graph.empty with
    stringDatas := .ofItems [⟨1, #[0x56]⟩]
    stringIds := .ofItems [⟨⟨0⟩⟩]
    typeIds := .ofItems [⟨⟨0⟩⟩]
    protoIds := .ofItems [⟨⟨0⟩, ⟨0⟩, none⟩]
    methodIds := .ofItems [⟨⟨0⟩, ⟨0⟩, ⟨0⟩⟩]
    classDefs := .ofItems [⟨⟨0⟩, ⟨1⟩, none, none, none, none, some ⟨0⟩, none⟩]
    codeItems := .ofItems [⟨1, 0, 0, none, #[0x001A, 0, 0x001A, 99, 0x0018], #[], #[]⟩]
    classDatas := .ofItems [⟨none, #[], #[], #[⟨⟨8⟩, ⟨0⟩, some ⟨0⟩, none⟩], #[]⟩] } :
      Graph).registerMethod 0 ⟨⟨0⟩, .direct, 0⟩

/-- The one method is registered, and carries what it names. -/
theorem findReferences_oneCaller :
    oneCaller.methodItems[(0 : UInt32)]? = some ⟨⟨0⟩, .direct, 0⟩ ∧
    oneCaller.methodAt? ⟨⟨0⟩, .direct, 0⟩ = some ⟨⟨8⟩, ⟨0⟩, some ⟨0⟩, none⟩ ∧
    ∀ k i, i ∈ ((⟨oneCaller, .empty, {}⟩ : Dex).findReferences.references.usesAt oneCaller
      ⟨⟨0⟩, .direct, 0⟩).of k ↔
        (⟨⟨8⟩, ⟨0⟩, some ⟨0⟩, none⟩ : MethodItem).Names oneCaller k i := by
  have hregistered : oneCaller.methodItems[(0 : UInt32)]? = some ⟨⟨0⟩, .direct, 0⟩ := by decide
  have hmethod : oneCaller.methodAt? ⟨⟨0⟩, .direct, 0⟩ = some ⟨⟨8⟩, ⟨0⟩, some ⟨0⟩, none⟩ := rfl
  exact ⟨hregistered, hmethod, (findReferences_exact ⟨oneCaller, .empty, {}⟩).1 _ _ _ hregistered
    hmethod⟩

example : ((⟨oneCaller, .empty, {}⟩ : Dex).findReferences.references.usesAt oneCaller
    ⟨⟨0⟩, .direct, 0⟩).strings.toList = [0] := by decide +kernel

end Dex

end DexGraph
