import DexGraph.Proofs.Assembly.Establishes
import DexGraph.Proofs.Codec.Encodable
import DexGraph.Proofs.Codec.WellFormed

/-!
# Members of a class are read back

The members of a class are written as differences of their indices. `ClassData.encode_outcome` says
that this succeeds where the indices of every list ascend, and how the bytes are read: members are
taken from them one by one, and for every method the body at the offset that is written for it.
Between two members a body may be read, but this adds neither fields nor methods to the graph.
-/

namespace DexGraph

open Decoder

/-! ## Indices in order -/

theorem exists_memberDelta_iff {last : Option UInt32} {index : UInt32} :
    (∃ delta, memberDelta last index = .ok delta) ↔ ∀ p ∈ last, p < index := by
  cases last with
  | none => simp [memberDelta]
  | some p =>
    unfold memberDelta
    by_cases hle : index ≤ p
    · simp [hle]
    · simpa [hle] using UInt32.not_le.mp hle

section Lists

variable {α : Type} {index : α → UInt32} {details : α → Except Error Bytes}

/-- A list of members is written if and only if its indices ascend. -/
theorem exists_memberBytes_iff {last : Option UInt32} {xs : List α}
    (hdetails : ∀ x ∈ xs, ∃ part, details x = .ok part) :
    (∃ out, memberBytes index details last xs = .ok out) ↔
      (last.toList ++ xs.map index).IsChain (· < ·) := by
  induction xs generalizing last with
  | nil => cases last <;> simp [memberBytes]
  | cons x rest ih =>
    obtain ⟨detail, hdetail⟩ := hdetails x List.mem_cons_self
    have hrest := @ih (some (index x)) fun y hy => hdetails y (List.mem_cons_of_mem _ hy)
    have hchain : (last.toList ++ (x :: rest).map index).IsChain (· < ·) ↔
        (∀ p ∈ last, p < index x) ∧ ((some (index x)).toList ++ rest.map index).IsChain (· < ·) := by
      cases last <;> simp
    rw [hchain, ← exists_memberDelta_iff, ← hrest]
    simp only [memberBytes, Except.bind_eq_ok_iff, hdetail]
    constructor
    · rintro ⟨_, delta, hdelta, _, -, tail, htail, -⟩
      exact ⟨⟨delta, hdelta⟩, tail, htail⟩
    · rintro ⟨⟨delta, hdelta⟩, tail, htail⟩
      exact ⟨_, delta, hdelta, detail, rfl, tail, htail, rfl⟩

/-- Members whose details can be written are refused only for their indices. -/
theorem malformed_of_foldlM_member {step : MemberBytes → α → Except Error MemberBytes}
    (hstep : ∀ out x, step out x = do
      let delta ← memberDelta out.last (index x)
      let detail ← details x
      return ⟨out.bytes ++ Leb128.encodeUnsigned delta ++ detail, some (index x)⟩)
    {xs : List α} (hdetails : ∀ x ∈ xs, ∃ part, details x = .ok part) {start : MemberBytes}
    {e : Error} (h : xs.foldlM step start = .error e) : ∃ defect, e = .malformed defect := by
  induction xs generalizing start with
  | nil => cases h
  | cons x rest ih =>
    obtain ⟨detail, hdetail⟩ := hdetails x List.mem_cons_self
    simp only [List.foldlM_cons, Except.bind_eq_error_iff, hstep, hdetail, Except.pure_ne_error,
      and_false, exists_false, or_false, reduceCtorEq] at h
    rcases h with h | ⟨_, -, h⟩
    · obtain ⟨p, -, -, rfl⟩ := memberDelta_eq_error h
      exact ⟨_, rfl⟩
    · exact ih (fun y hy => hdetails y (List.mem_cons_of_mem _ hy)) h

end Lists

theorem malformed_of_toWord {n : Nat} {e : Error} (h : toWord n = .error e) :
    ∃ defect, e = .malformed defect := by
  unfold toWord at h
  split at h
  · cases h
  · cases h
    exact ⟨_, rfl⟩

namespace MethodItem

/-- The offset that is written for the body of a method. -/
def bodyOffset (l : Layout) (m : MethodItem) : UInt32 :=
  (m.body?.bind fun r => (l.place r).offset).getD 0

/-- The body of the method, if there is one to write, has an offset that does not stand for none. -/
def BodyPlaced (l : Layout) (m : MethodItem) : Prop :=
  ∀ r ∈ m.body?, ∃ o, (l.place r).offset = some o ∧ o ≠ 0

variable {l : Layout} {m : MethodItem}

theorem BodyPlaced.offsetOrZero (h : m.BodyPlaced l) :
    l.offsetOrZero m.body? = .ok (m.bodyOffset l) := by
  unfold bodyOffset
  cases hbody : m.body? with
  | none => rfl
  | some r =>
    obtain ⟨o, ho, -⟩ := h r hbody
    simpa [Layout.offsetOrZero, ho] using Layout.offsetOf_eq_ok_iff.mpr ho

theorem BodyPlaced.bodyOffset_eq_zero_iff (h : m.BodyPlaced l) :
    m.bodyOffset l = 0 ↔ m.isNative = true ∨ m.code = none := by
  have hbody : m.body? = none ↔ m.isNative = true ∨ m.code = none := by
    unfold body?
    cases m.isNative <;> simp
  rw [← hbody]
  unfold bodyOffset
  cases hb : m.body? with
  | none => simp
  | some r =>
    obtain ⟨o, ho, hne⟩ := h r hb
    simpa [ho] using hne

theorem BodyPlaced.details (h : m.BodyPlaced l) :
    m.details l = .ok (Leb128.encodeUnsigned m.accessFlags.bits ++
      Leb128.encodeUnsigned (m.bodyOffset l)) := by
  simp only [MethodItem.details, h.offsetOrZero]
  rfl

end MethodItem

namespace ClassData

/-- The indices of every list of members ascend, without repetitions. -/
def Ordered (c : ClassData) : Prop :=
  ∀ indices ∈ c.indexLists, indices.Pairwise (· < ·)

variable {l : Layout} {c : ClassData}

/-- Class data is written if and only if there are not too many members and their indices ascend. -/
theorem exists_encode_iff (h : ∀ m ∈ c.allMethods, m.BodyPlaced l) :
    (∃ bytes, c.encode l = .ok bytes) ↔ c.Countable ∧ c.Ordered := by
  have hfields (fields : Array FieldItem) : (∃ out, FieldItem.listBytes fields = .ok out) ↔
      (fields.toList.map (·.field.slot)).Pairwise (· < ·) := by
    rw [← List.isChain_iff_pairwise]
    exact exists_memberBytes_iff fun f _ => ⟨_, rfl⟩
  have hmethods {methods : Array MethodItem} (hsub : ∀ m ∈ methods, m ∈ c.allMethods) :
      (∃ out, MethodItem.listBytes l methods = .ok out) ↔
        (methods.toList.map (·.method.slot)).Pairwise (· < ·) := by
    rw [← List.isChain_iff_pairwise]
    exact exists_memberBytes_iff fun m hm =>
      ⟨_, (h m (hsub m (Array.mem_toList_iff.mp hm))).details⟩
  have hordered : c.Ordered ↔ (∃ out, FieldItem.listBytes c.staticFields = .ok out) ∧
      (∃ out, FieldItem.listBytes c.instanceFields = .ok out) ∧
      (∃ out, MethodItem.listBytes l c.directMethods = .ok out) ∧
      ∃ out, MethodItem.listBytes l c.virtualMethods = .ok out := by
    rw [hfields, hfields, hmethods fun m hm => Array.mem_append_left _ hm,
      hmethods fun m hm => Array.mem_append_right _ hm]
    simp [Ordered, indexLists]
  rw [hordered]
  constructor
  · rintro ⟨bytes, hbytes⟩
    obtain ⟨hcount, t₁, t₂, t₃, t₄, h₁, h₂, h₃, h₄, -⟩ := encode_eq_ok_iff.mp hbytes
    exact ⟨hcount, ⟨t₁, h₁⟩, ⟨t₂, h₂⟩, ⟨t₃, h₃⟩, t₄, h₄⟩
  · rintro ⟨hcount, ⟨t₁, h₁⟩, ⟨t₂, h₂⟩, ⟨t₃, h₃⟩, t₄, h₄⟩
    exact ⟨(c.counts ++ t₁ ++ t₂ ++ t₃ ++ t₄).toArray,
      encode_eq_ok_iff.mpr ⟨hcount, t₁, t₂, t₃, t₄, h₁, h₂, h₃, h₄, rfl⟩⟩

/-- Class data whose bodies have offsets is refused only because it contradicts itself. -/
theorem malformed_of_encode (hbody : ∀ m ∈ c.allMethods, m.BodyPlaced l) {e : Error}
    (h : c.encode l = .error e) : ∃ defect, e = .malformed defect := by
  have hmethods {methods : Array MethodItem} (hsub : ∀ m ∈ methods, m ∈ c.allMethods) :
      ∀ m ∈ methods.toList, ∃ part, m.details l = .ok part := fun m hm =>
    ⟨_, (hbody m (hsub m (Array.mem_toList_iff.mp hm))).details⟩
  simp only [encode, Except.bind_eq_error_iff, Except.pure_ne_error, and_false, exists_false,
    or_false, ← Array.foldlM_toList] at h
  rcases h with h | ⟨_, -, h | ⟨_, -, h | ⟨_, -, h | ⟨_, -, h | ⟨_, -, h | ⟨_, -, h |
    ⟨_, -, h⟩⟩⟩⟩⟩⟩⟩
  · exact malformed_of_toWord h
  · exact malformed_of_toWord h
  · exact malformed_of_toWord h
  · exact malformed_of_toWord h
  · exact malformed_of_foldlM_member FieldItem.encode_step (fun f _ => ⟨_, rfl⟩) h
  · exact malformed_of_foldlM_member FieldItem.encode_step (fun f _ => ⟨_, rfl⟩) h
  · exact malformed_of_foldlM_member (MethodItem.encode_step_method l)
      (hmethods fun m hm => Array.mem_append_left _ hm) h
  · exact malformed_of_foldlM_member (MethodItem.encode_step_method l)
      (hmethods fun m hm => Array.mem_append_right _ hm) h

end ClassData

/-! ## What reading a body leaves alone -/

/-- Adding a data item leaves the other sections alone. -/
theorem Assembly.entities_of_enter {a a' : Assembly} {keep : Bool} {s t : Section} {key : ItemKey}
    {size : UInt32} {x : s.Content} {r : Ref s} (h : a.enter keep s key size x = .ok (r, a'))
    (ht : t ≠ s) : a'.graph.entities t = a.graph.entities t := by
  simp only [enter, Graph.takeEntities] at h
  split at h
  · cases h
    rw [Graph.entities_setEntities_of_ne _ _ (Ne.symm ht),
      Graph.entities_setEntities_of_ne _ _ (Ne.symm ht)]
  · cases h

namespace Build

/-- The step leaves a section as it is. -/
def Keeps {α : Type} (s : Section) (b : Build α) : Prop :=
  ∀ source a, Establishes source (fun _ => True) b
    (fun _ a' => a'.graph.entities s = a.graph.entities s) a

section Rules

variable {α β : Type} {s t : Section}

theorem keeps_pure {x : α} : (pure x : Build α).Keeps s :=
  fun _ _ => establishes_pure.mpr rfl

theorem Keeps.bind {b : Build β} {f : β → Build α} (h : b.Keeps s) (hf : ∀ x, (f x).Keeps s) :
    (b >>= f).Keeps s :=
  fun source a => (h source a).bind fun x a' ha' =>
    (hf x source a').mono fun _ _ ha'' => ha''.trans ha'

theorem keeps_ofExcept {x : Except Error α} : (ofExcept x).Keeps s :=
  fun _ _ => establishes_ofExcept.mpr ⟨fun _ _ => rfl, fun _ _ => trivial⟩

theorem keeps_decodeWith {d : Graph → Decoder α} {p : Nat} :
    Keeps s ((Reading.decodeWith d).run p) :=
  fun _ _ => establishes_run_decodeWith.mpr ⟨fun _ _ _ => rfl, fun _ _ => trivial⟩

theorem keeps_enter (ht : t ≠ s) {key : ItemKey} {stop : Nat} {x : s.Content} :
    (enter s key stop x).Keeps t := by
  refine keeps_ofExcept.bind fun size source a => ?_
  unfold Establishes
  split
  · exact Assembly.entities_of_enter ‹_› ht
  · trivial

theorem keeps_itemOf (ht : t ≠ s) {key : ItemKey} {p : Nat} {read : Reading s.Content}
    (hread : Keeps t (read.run p)) : (itemOf s key p read).Keeps t := by
  intro source a
  refine establishes_bind.mpr (establishes_known?.mpr ?_)
  split
  · exact keeps_pure source a
  · exact hread.bind (fun out => keeps_enter ht) source a

theorem keeps_itemAt? (ht : t ≠ s) {o : UInt32} {read : Reading s.Content}
    (hread : ∀ p, Keeps t (read.run p)) : (itemAt? s o read).Keeps t := by
  unfold itemAt?
  split
  · exact keeps_pure
  · exact (keeps_itemOf ht (hread _)).bind fun _ => keeps_pure

/-- Reading a body adds bodies and debug info alone. -/
theorem keeps_codeItem? (ht : t ≠ .codeItem) (ht' : t ≠ .debugInfo) {o : UInt32} :
    (codeItem? o).Keeps t := by
  unfold codeItem?
  split
  · exact keeps_pure
  · refine (keeps_decodeWith (d := fun _ => CodeHeader.decode)).bind fun out =>
      (keeps_itemOf ht fun source a => ?_).bind fun _ => keeps_pure
    refine establishes_run_bind.mpr (establishes_run_lift.mpr ?_)
    exact ((keeps_itemAt? ht' fun _ => keeps_decodeWith (d := fun _ => DebugInfo.decode)) source
      a).mono fun _ _ ha' => ha' ▸ keeps_decodeWith source _

end Rules

/-! ## Reading members -/

/-- The method as it is read, with the body at the offset that is written for it. -/
def readBody (l : Layout) (m : MethodItem) : Build MethodItem := do
  return ⟨m.accessFlags, m.method, ← codeItem? (m.bodyOffset l), none⟩

/-- The members of a class as they are read, with the bodies of the methods one after the other. -/
def readBodies (l : Layout) (c : ClassData) : Build ClassData := do
  let directMethods ← c.directMethods.toList.mapM (readBody l)
  let virtualMethods ← c.virtualMethods.toList.mapM (readBody l)
  return ⟨none, c.staticFields.map .bare, c.instanceFields.map .bare, directMethods.toArray,
    virtualMethods.toArray⟩

variable {l : Layout} {source : Source}

theorem run_methodsFrom {last : Option UInt32} {xs : List MethodItem} {out : List UInt8}
    (h : memberBytes (·.method.slot) (MethodItem.details l) last xs = .ok out)
    (hbodies : ∀ m ∈ xs, m.BodyPlaced l) {a : Assembly}
    (hrefs : ∀ m ∈ xs, a.graph.Has .methodId m.method) {p : Nat}
    (hat : source.data.HoldsAt p out) (done : Array MethodItem) :
    (methodsFrom (last.getD 0) done xs.length).run p source a =
      (do return (done ++ (← xs.mapM (readBody l)).toArray, p + out.length)) source a := by
  induction xs generalizing last out a p done with
  | nil =>
    cases h
    simp [methodsFrom]
  | cons m rest ih =>
    have hdetails := (hbodies m List.mem_cons_self).details
    simp only [memberBytes, Except.bind_eq_ok_iff, Except.pure_eq_ok_iff, hdetails] at h
    obtain ⟨delta, hdelta, detail, ⟨⟩, tail, htail, rfl⟩ := h
    rw [Array.toList_append, Bytes.holdsAt_append, Bytes.holdsAt_append, Bytes.holdsAt_append] at hat
    obtain ⟨⟨hdeltaAt, hflagsAt, hoffsetAt⟩, htailAt⟩ := hat
    have hflags := recovers_unsignedLeb _ _ hflagsAt
    have hoffset := recovers_unsignedLeb _ _ hoffsetAt
    rw [List.length_cons, methodsFrom, run_decode_bind (recovers_unsignedLeb _ _ hdeltaAt),
      run_ofExcept_bind (nextIndex_of_memberDelta hdelta), run_decode_bind hflags,
      run_decode_bind hoffset, run_resolve_bind (hrefs m List.mem_cons_self), run_lift_bind, run_bind,
      List.mapM_cons, readBody]
    simp only [bind_assoc, pure_bind]
    rw [run_bind]
    have hkept := (keeps_codeItem? (t := .methodId) (by decide) (by decide) :
      (codeItem? (m.bodyOffset l)).Keeps .methodId) source a
    cases hbody : codeItem? (m.bodyOffset l) source a with
    | error e => rfl
    | ok found =>
      have hentities := hkept.of_ok hbody
      simp only [List.length_append, ← Nat.add_assoc] at htailAt
      have hrest := ih htail (fun m' hm' => hbodies m' (List.mem_cons_of_mem _ hm'))
        (a := found.2) (fun m' hm' => by
          have hm' := hrefs m' (List.mem_cons_of_mem _ hm')
          unfold Graph.Has Graph.count at hm' ⊢
          rwa [hentities]) htailAt
        (done.push ⟨m.accessFlags, m.method, found.1, none⟩)
      have hpush (new : List MethodItem) :
          done.push ⟨m.accessFlags, m.method, found.1, none⟩ ++ new.toArray =
            done ++ (⟨m.accessFlags, m.method, found.1, none⟩ :: new).toArray := by simp
      simp only [hpush] at hrest
      refine hrest.trans ?_
      simp only [List.length_append, Array.toList_append, ← Nat.add_assoc]

/-- A list of methods that has been written is read back before anything that comes next. -/
theorem run_methodList_bind {α : Type} {methods : Array MethodItem} {out : List UInt8}
    (h : MethodItem.listBytes l methods = .ok out) (hsize : methods.size < 2 ^ 32)
    (hbodies : ∀ m ∈ methods, m.BodyPlaced l) {a : Assembly}
    (hrefs : ∀ m ∈ methods, a.graph.Has .methodId m.method) {p : Nat}
    (hat : source.data.HoldsAt p out) {f : Array MethodItem → Reading α} :
    (methodsFrom 0 #[] methods.size.toUInt32.toNat >>= f).run p source a =
      (methods.toList.mapM (readBody l) >>= fun new => (f new.toArray).run (p + out.length))
        source a := by
  have hrun := run_methodsFrom h (fun m hm => hbodies m (Array.mem_toList_iff.mp hm))
    (fun m hm => hrefs m (Array.mem_toList_iff.mp hm)) hat #[]
  rw [Option.getD_none, Array.length_toList] at hrun
  rw [toNat_toUInt32 hsize, StateT.run_bind, run_bind, run_bind, hrun, run_bind]
  cases methods.toList.mapM (readBody l) source a with
  | error e => rfl
  | ok found => simp only [Array.empty_append]; rfl

theorem keeps_readBodies {xs : List MethodItem} : (xs.mapM (readBody l)).Keeps .methodId := by
  induction xs with
  | nil => exact keeps_pure
  | cons m rest ih =>
    rw [List.mapM_cons]
    exact ((keeps_codeItem? (by decide) (by decide)).bind fun _ => keeps_pure).bind fun _ =>
      ih.bind fun _ => keeps_pure

/-- Class data that has been written is read back, up to the bodies of its methods. These are read
from the offsets that have been written, and only they can make reading fail. -/
theorem run_classMembers {c : ClassData} {bytes : Bytes} (h : c.encode l = .ok bytes)
    (hbodies : ∀ m ∈ c.allMethods, m.BodyPlaced l) {a : Assembly}
    (hfields : ∀ f ∈ c.allFields, a.graph.Has .fieldId f.field)
    (hmethods : ∀ m ∈ c.allMethods, a.graph.Has .methodId m.method) {p : Nat}
    (hat : source.data.HoldsAt p bytes.toList) :
    classMembers.run p source a = (do return (← readBodies l c, p + bytes.size)) source a := by
  obtain ⟨⟨hs, hi, hd, hv⟩, static, inst, direct, virtual, hstatic, hinst, hdirect, hvirtual,
    hbytes⟩ := ClassData.encode_eq_ok_iff.mp h
  simp only [hbytes, ClassData.counts, List.append_assoc, Bytes.holdsAt_append] at hat
  obtain ⟨h₁, h₂, h₃, h₄, hstaticAt, hinstAt, hdirectAt, hvirtualAt⟩ := hat
  rw [classMembers, run_decode_bind (recovers_unsignedLeb _ _ h₁),
    run_decode_bind (recovers_unsignedLeb _ _ h₂), run_decode_bind (recovers_unsignedLeb _ _ h₃),
    run_decode_bind (recovers_unsignedLeb _ _ h₄),
    run_decodeWith_bind (FieldItem.decodeList_recovers hstatic hs
      (fun f hf => hfields f (Array.mem_append_left _ hf)) _ _ hstaticAt),
    run_decodeWith_bind (FieldItem.decodeList_recovers hinst hi
      (fun f hf => hfields f (Array.mem_append_right _ hf)) _ _ hinstAt),
    run_methodList_bind hdirect hd (fun m hm => hbodies m (Array.mem_append_left _ hm))
      (fun m hm => hmethods m (Array.mem_append_left _ hm)) hdirectAt, run_bind]
  simp only [readBodies, bind_assoc, pure_bind]
  rw [run_bind]
  cases hread : c.directMethods.toList.mapM (readBody l) source a with
  | error e => rfl
  | ok found =>
    -- the bodies of the direct methods have added no methods
    have hentities := (keeps_readBodies source a).of_ok hread
    have hrefs (m : MethodItem) (hm : m ∈ c.virtualMethods) :
        found.2.graph.Has .methodId m.method := by
      have hm := hmethods m (Array.mem_append_right _ hm)
      unfold Graph.Has Graph.count at hm ⊢
      rwa [hentities]
    have hvirtuals := run_methodList_bind hvirtual hv
      (fun m hm => hbodies m (Array.mem_append_right _ hm)) hrefs hvirtualAt
      (f := fun virtualMethods => pure (⟨none, c.staticFields.map .bare,
        c.instanceFields.map .bare, found.1.toArray, virtualMethods⟩ : ClassData))
    have hsize : bytes.size = (c.counts ++ static ++ inst ++ direct ++ virtual).length := by
      rw [← hbytes, Array.length_toList]
    simp only [hsize, ClassData.counts, List.length_append, ← Nat.add_assoc]
    exact hvirtuals

end Build

namespace ClassData

/-- Class data whose bodies have offsets is written if and only if there are not too many members and
the indices of every list ascend; otherwise it is refused because it contradicts itself. What is
written is read back wherever it stands: the four lists with all access flags, and for every method
the body at the offset that is written for it, which is zero exactly for a native method and for one
without a body. Reading ends where the bytes end, and it fails only where one of the bodies does. -/
theorem encode_outcome {l : Layout} {c : ClassData} (h : ∀ m ∈ c.allMethods, m.BodyPlaced l) :
    (∀ m ∈ c.allMethods, m.bodyOffset l = 0 ↔ m.isNative = true ∨ m.code = none) ∧
      ((c.Countable ∧ c.Ordered) ∧ (∃ bytes, c.encode l = .ok bytes ∧
          ∀ (source : Source) (a : Assembly) (p : Nat), source.data.HoldsAt p bytes.toList →
            (∀ f ∈ c.allFields, a.graph.Has .fieldId f.field) →
            (∀ m ∈ c.allMethods, a.graph.Has .methodId m.method) →
              Build.classMembers.run p source a =
                (do return (← Build.readBodies l c, p + bytes.size)) source a) ∨
        ¬ (c.Countable ∧ c.Ordered) ∧ ∃ defect, c.encode l = .error (.malformed defect)) := by
  refine ⟨fun m hm => (h m hm).bodyOffset_eq_zero_iff, ?_⟩
  have hiff := exists_encode_iff h
  cases hencode : c.encode l with
  | ok bytes =>
    refine .inl ⟨hiff.mp ⟨bytes, hencode⟩, bytes, rfl, fun source a p hat hfields hmethods => ?_⟩
    exact Build.run_classMembers hencode h hfields hmethods hat
  | error e =>
    obtain ⟨defect, rfl⟩ := malformed_of_encode h hencode
    refine .inr ⟨fun hordered => ?_, defect, rfl⟩
    obtain ⟨bytes, hbytes⟩ := hiff.mpr hordered
    cases hencode.symm.trans hbytes

/-- A class with fields and methods of every kind: a native method whose body is left out, one with a
body and an abstract one. -/
def fourLists : ClassData where
  classDef := none
  staticFields := #[⟨⟨0x19⟩, ⟨0⟩, none⟩, ⟨⟨0xFFFFFFFF⟩, ⟨0x1FFFF⟩, none⟩]
  instanceFields := #[⟨⟨2⟩, ⟨7⟩, none⟩]
  directMethods := #[⟨⟨0x101⟩, ⟨3⟩, some ⟨0⟩, none⟩, ⟨⟨1⟩, ⟨0xFFFFFFFE⟩, some ⟨1⟩, none⟩]
  virtualMethods := #[⟨⟨0x401⟩, ⟨2⟩, none, none⟩]

/-- The second body has an offset. -/
def fourListsLayout : Layout :=
  Layout.empty.setOffset (⟨1⟩ : Ref .codeItem) (some 0x2A4)

theorem fourLists_bodyPlaced : ∀ m ∈ fourLists.allMethods, m.BodyPlaced fourListsLayout := by
  have hmethods : fourLists.allMethods = #[⟨⟨0x101⟩, ⟨3⟩, some ⟨0⟩, none⟩,
      ⟨⟨1⟩, ⟨0xFFFFFFFE⟩, some ⟨1⟩, none⟩, ⟨⟨0x401⟩, ⟨2⟩, none, none⟩] := rfl
  rw [hmethods]
  simp only [List.mem_toArray, List.mem_cons, List.not_mem_nil, or_false]
  rintro m (rfl | rfl | rfl) r hr
  · have hnone : MethodItem.body? ⟨⟨0x101⟩, ⟨3⟩, some ⟨0⟩, none⟩ = none := by decide
    rw [hnone] at hr
    cases hr
  · have hsome : MethodItem.body? ⟨⟨1⟩, ⟨0xFFFFFFFE⟩, some ⟨1⟩, none⟩ = some ⟨1⟩ := by decide
    rw [hsome] at hr
    cases hr
    exact ⟨0x2A4, by decide, by decide⟩
  · have hnone : MethodItem.body? ⟨⟨0x401⟩, ⟨2⟩, none, none⟩ = none := by decide
    rw [hnone] at hr
    cases hr

/-- The four lists are written and read back. -/
theorem encode_outcome_fourLists : (fourLists.encode fourListsLayout).isOk = true ∧
    (∀ m ∈ fourLists.allMethods,
      m.bodyOffset fourListsLayout = 0 ↔ m.isNative = true ∨ m.code = none) ∧
      ((fourLists.Countable ∧ fourLists.Ordered) ∧
          (∃ bytes, fourLists.encode fourListsLayout = .ok bytes ∧
            ∀ (source : Source) (a : Assembly) (p : Nat), source.data.HoldsAt p bytes.toList →
              (∀ f ∈ fourLists.allFields, a.graph.Has .fieldId f.field) →
              (∀ m ∈ fourLists.allMethods, a.graph.Has .methodId m.method) →
                Build.classMembers.run p source a =
                  (do return (← Build.readBodies fourListsLayout fourLists, p + bytes.size))
                    source a) ∨
        ¬ (fourLists.Countable ∧ fourLists.Ordered) ∧
          ∃ defect, fourLists.encode fourListsLayout = .error (.malformed defect)) :=
  ⟨by decide +kernel, encode_outcome fourLists_bodyPlaced⟩

end ClassData

end DexGraph
