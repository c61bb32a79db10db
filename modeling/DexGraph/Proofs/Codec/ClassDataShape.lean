import DexGraph.Codec.ClassData
import DexGraph.Proofs.Bytes.Leb128
import DexGraph.Proofs.Codec.Concat
import DexGraph.Proofs.Layout.Places

/-!
# The shape of written class data

The four lists of members are written by one scheme: the difference of the index to the one
before, and what the kind of member adds to it. `ClassData.encode_eq_ok_iff` takes written class
data apart into the four numbers of members and the four lists.
-/

namespace DexGraph

/-- The bytes of a list of members, where `last` is the index of the member before them. The
functions give the index of a member and the bytes behind its difference. -/
def memberBytes {α : Type} (index : α → UInt32) (details : α → Except Error Bytes) :
    Option UInt32 → List α → Except Error (List UInt8)
  | _, [] => .ok []
  | last, x :: rest => do
    let delta ← memberDelta last (index x)
    let detail ← details x
    let tail ← memberBytes index details (some (index x)) rest
    return (Leb128.encodeUnsigned delta).toList ++ detail.toList ++ tail

theorem not_lacksOffset_of_memberDelta {last : Option UInt32} {index : UInt32} {e : Error}
    (h : memberDelta last index = .error e) : ¬ e.LacksOffset := by
  unfold memberDelta at h
  split at h
  · cases h
  · split at h
    · cases h
      rintro ⟨_, ⟨⟩⟩
    · cases h

section MemberLoop

variable {α : Type} {index : α → UInt32} {details details' : α → Except Error Bytes}
  {step : MemberBytes → α → Except Error MemberBytes}

private theorem foldlM_member_eq_ok_iff
    (hstep : ∀ out x, step out x = do
      let delta ← memberDelta out.last (index x)
      let detail ← details x
      return ⟨out.bytes ++ Leb128.encodeUnsigned delta ++ detail, some (index x)⟩)
    {xs : List α} {start : MemberBytes} {bytes : Bytes} :
    (∃ last, xs.foldlM step start = .ok ⟨bytes, last⟩) ↔
      ∃ tail, memberBytes index details start.last xs = .ok tail ∧
        bytes.toList = start.bytes.toList ++ tail := by
  induction xs generalizing start with
  | nil =>
    simp only [List.foldlM_nil, Except.pure_eq_ok_iff, memberBytes]
    constructor
    · rintro ⟨_, rfl⟩
      exact ⟨[], rfl, by simp⟩
    · rintro ⟨_, ⟨⟩, h⟩
      obtain rfl := Array.toList_inj.mp (h.trans (List.append_nil _))
      exact ⟨_, rfl⟩
  | cons x xs ih =>
    simp only [List.foldlM_cons, Except.bind_eq_ok_iff, hstep, Except.pure_eq_ok_iff, memberBytes]
    constructor
    · rintro ⟨last, _, ⟨delta, hdelta, detail, hdetail, rfl⟩, h⟩
      obtain ⟨tail, htail, hbytes⟩ := ih.mp ⟨last, h⟩
      exact ⟨_, ⟨delta, hdelta, detail, hdetail, tail, htail, rfl⟩, by simp [hbytes]⟩
    · rintro ⟨_, ⟨delta, hdelta, detail, hdetail, tail, htail, rfl⟩, hbytes⟩
      obtain ⟨last, h⟩ := (@ih ⟨start.bytes ++ Leb128.encodeUnsigned delta ++ detail,
        some (index x)⟩).mpr ⟨tail, htail, by simp [hbytes]⟩
      exact ⟨last, _, ⟨delta, hdelta, detail, hdetail, rfl⟩, h⟩

private theorem not_lacksOffset_of_foldlM
    (hstep : ∀ out x, step out x = do
      let delta ← memberDelta out.last (index x)
      let detail ← details x
      return ⟨out.bytes ++ Leb128.encodeUnsigned delta ++ detail, some (index x)⟩)
    {xs : List α} (hdetails : ∀ x ∈ xs, ∀ e, details x = .error e → ¬ e.LacksOffset)
    {start : MemberBytes} {e : Error} (h : xs.foldlM step start = .error e) :
    ¬ e.LacksOffset := by
  induction xs generalizing start with
  | nil => cases h
  | cons x xs ih =>
    simp only [List.foldlM_cons, Except.bind_eq_error_iff, hstep, Except.pure_ne_error, and_false,
      exists_false, or_false] at h
    rcases h with (h | ⟨_, -, h⟩) | ⟨_, -, h⟩
    · exact not_lacksOffset_of_memberDelta h
    · exact hdetails x List.mem_cons_self e h
    · exact ih (fun y hy => hdetails y (List.mem_cons_of_mem _ hy)) h

theorem memberBytes_congr {last : Option UInt32} {xs : List α} {out : List UInt8}
    (h : memberBytes index details last xs = .ok out)
    (hd : ∀ x ∈ xs, ∀ part, details x = .ok part → details' x = .ok part) :
    memberBytes index details' last xs = .ok out := by
  induction xs generalizing last out with
  | nil => exact h
  | cons x xs ih =>
    simp only [memberBytes, Except.bind_eq_ok_iff] at h ⊢
    obtain ⟨delta, hdelta, detail, hdetail, tail, htail, h⟩ := h
    exact ⟨delta, hdelta, detail, hd x List.mem_cons_self _ hdetail, tail,
      ih htail fun y hy => hd y (List.mem_cons_of_mem _ hy), h⟩

/-- Reading a list of members, one by one, with a decoder that reads each of them. -/
theorem readsEach_memberBytes {β : Type} {read : Decoder β} {R : α → β → Prop} {data : Bytes}
    (hread : ∀ x detail delta p, details x = .ok detail →
      data.HoldsAt p ((Leb128.encodeUnsigned delta).toList ++ detail.toList) →
      ∃ v, R x v ∧
        read.Reads data p v (p + (Leb128.encodeUnsigned delta).size + detail.size))
    {last : Option UInt32} {xs : List α} {out : List UInt8} {p : Nat}
    (h : memberBytes index details last xs = .ok out) (hat : data.HoldsAt p out) :
    ∃ vs, List.Forall₂ R xs vs ∧ Decoder.ReadsEach read data p vs (p + out.length) := by
  induction xs generalizing last out p with
  | nil =>
    cases h
    exact ⟨[], .nil, rfl⟩
  | cons x xs ih =>
    simp only [memberBytes, Except.bind_eq_ok_iff, Except.pure_eq_ok_iff] at h
    obtain ⟨delta, -, detail, hdetail, tail, htail, rfl⟩ := h
    rw [Bytes.holdsAt_append] at hat
    obtain ⟨v, hv, hreads⟩ := hread x detail delta p hdetail hat.1
    obtain ⟨vs, hvs, heach⟩ := ih htail hat.2
    simp only [List.length_append, Array.length_toList, ← Nat.add_assoc] at heach ⊢
    exact ⟨v :: vs, .cons hv hvs, _, hreads, heach⟩

end MemberLoop

namespace FieldItem

/-- What follows the difference of the index of a field. -/
def details (f : FieldItem) : Except Error Bytes :=
  .ok (Leb128.encodeUnsigned f.accessFlags.bits)

/-- The bytes of a list of fields. -/
def listBytes (fields : Array FieldItem) : Except Error (List UInt8) :=
  memberBytes (·.field.slot) details none fields.toList

theorem encode_step (out : MemberBytes) (f : FieldItem) : encode out f = do
    let delta ← memberDelta out.last f.field.slot
    let detail ← f.details
    return ⟨out.bytes ++ Leb128.encodeUnsigned delta ++ detail, some f.field.slot⟩ := rfl

theorem foldlM_encode_eq_ok_iff {fields : Array FieldItem} {start bytes : Bytes} :
    (∃ last, fields.foldlM encode ⟨start, none⟩ = .ok ⟨bytes, last⟩) ↔
      ∃ tail, listBytes fields = .ok tail ∧ bytes.toList = start.toList ++ tail := by
  simp only [← Array.foldlM_toList, listBytes]
  exact foldlM_member_eq_ok_iff encode_step

theorem not_lacksOffset_of_foldlM_encode {fields : Array FieldItem} {start : MemberBytes}
    {e : Error} (h : fields.foldlM encode start = .error e) : ¬ e.LacksOffset := by
  rw [← Array.foldlM_toList] at h
  refine not_lacksOffset_of_foldlM encode_step ?_ h
  rintro f - e ⟨⟩

end FieldItem

namespace MethodItem

/-- What follows the difference of the index of a method. -/
def details (l : Layout) (m : MethodItem) : Except Error Bytes := do
  let codeOffset ← l.offsetOrZero m.body?
  return Leb128.encodeUnsigned m.accessFlags.bits ++ Leb128.encodeUnsigned codeOffset

/-- The bytes of a list of methods. -/
def listBytes (l : Layout) (methods : Array MethodItem) : Except Error (List UInt8) :=
  memberBytes (·.method.slot) (details l) none methods.toList

theorem encode_step_method (l : Layout) (out : MemberBytes) (m : MethodItem) :
    encode l out m = do
      let delta ← memberDelta out.last m.method.slot
      let detail ← m.details l
      return ⟨out.bytes ++ Leb128.encodeUnsigned delta ++ detail, some m.method.slot⟩ := by
  unfold encode details
  cases memberDelta out.last m.method.slot with
  | error e => rfl
  | ok delta =>
    cases l.offsetOrZero m.body? with
    | error e => rfl
    | ok offset =>
      change Except.ok (MemberBytes.mk _ _) = Except.ok (MemberBytes.mk _ _)
      simp only [Array.append_assoc]

theorem foldlM_encode_eq_ok_iff {l : Layout} {methods : Array MethodItem} {start bytes : Bytes} :
    (∃ last, methods.foldlM (encode l) ⟨start, none⟩ = .ok ⟨bytes, last⟩) ↔
      ∃ tail, listBytes l methods = .ok tail ∧ bytes.toList = start.toList ++ tail := by
  simp only [← Array.foldlM_toList, listBytes]
  exact foldlM_member_eq_ok_iff (encode_step_method l)

theorem not_lacksOffset_of_foldlM_encode {l : Layout} {methods : Array MethodItem}
    (hbody : ∀ m ∈ methods, ∀ e, l.offsetOrZero m.body? ≠ .error e)
    {start : MemberBytes} {e : Error} (h : methods.foldlM (encode l) start = .error e) :
    ¬ e.LacksOffset := by
  rw [← Array.foldlM_toList] at h
  refine not_lacksOffset_of_foldlM (encode_step_method l) ?_ h
  intro m hm e he
  simp only [details, Except.bind_eq_error_iff, Except.pure_ne_error, and_false, exists_false,
    or_false] at he
  exact absurd he (hbody m (by simpa using hm) e)

theorem listBytes_mono {l l' : Layout} (hl : l.Extends l') {methods : Array MethodItem}
    {out : List UInt8} (h : listBytes l methods = .ok out) : listBytes l' methods = .ok out := by
  refine memberBytes_congr h fun m _ part hm => ?_
  simp only [details, Except.bind_eq_ok_iff] at hm ⊢
  obtain ⟨o, ho, hpart⟩ := hm
  exact ⟨o, hl.offsetOrZero ho, hpart⟩

end MethodItem

namespace ClassData

/-- The four numbers of members at the start of class data. -/
def counts (c : ClassData) : List UInt8 :=
  (Leb128.encodeUnsigned c.staticFields.size.toUInt32).toList ++
    (Leb128.encodeUnsigned c.instanceFields.size.toUInt32).toList ++
    (Leb128.encodeUnsigned c.directMethods.size.toUInt32).toList ++
    (Leb128.encodeUnsigned c.virtualMethods.size.toUInt32).toList

/-- Every list of members is short enough for its number to be written. -/
def Countable (c : ClassData) : Prop :=
  c.staticFields.size < 2 ^ 32 ∧ c.instanceFields.size < 2 ^ 32 ∧
    c.directMethods.size < 2 ^ 32 ∧ c.virtualMethods.size < 2 ^ 32

private theorem exists_toWord_iff {n : Nat} {p : UInt32 → Prop} :
    (∃ v, toWord n = .ok v ∧ p v) ↔ n < 2 ^ 32 ∧ p n.toUInt32 := by
  simp only [toWord_eq_ok_iff_lt, and_assoc]
  constructor
  · rintro ⟨_, hn, rfl, hp⟩
    exact ⟨hn, hp⟩
  · rintro ⟨hn, hp⟩
    exact ⟨_, hn, rfl, hp⟩

/-- Written class data, taken apart. -/
theorem encode_eq_ok_iff {l : Layout} {c : ClassData} {bytes : Bytes} :
    c.encode l = .ok bytes ↔
      c.Countable ∧ ∃ static inst direct virtual,
        FieldItem.listBytes c.staticFields = .ok static ∧
        FieldItem.listBytes c.instanceFields = .ok inst ∧
        MethodItem.listBytes l c.directMethods = .ok direct ∧
        MethodItem.listBytes l c.virtualMethods = .ok virtual ∧
        bytes.toList = c.counts ++ static ++ inst ++ direct ++ virtual := by
  simp only [encode, Except.bind_eq_ok_iff, exists_toWord_iff, Except.pure_eq_ok_iff, Countable]
  constructor
  · rintro ⟨hs, hi, hd, hv, ⟨b₁, l₁⟩, h₁, ⟨b₂, l₂⟩, h₂, ⟨b₃, l₃⟩, h₃, ⟨b₄, l₄⟩, h₄, rfl⟩
    obtain ⟨t₁, ht₁, e₁⟩ := FieldItem.foldlM_encode_eq_ok_iff.mp ⟨l₁, h₁⟩
    obtain ⟨t₂, ht₂, e₂⟩ := FieldItem.foldlM_encode_eq_ok_iff.mp ⟨l₂, h₂⟩
    obtain ⟨t₃, ht₃, e₃⟩ := MethodItem.foldlM_encode_eq_ok_iff.mp ⟨l₃, h₃⟩
    obtain ⟨t₄, ht₄, e₄⟩ := MethodItem.foldlM_encode_eq_ok_iff.mp ⟨l₄, h₄⟩
    exact ⟨⟨hs, hi, hd, hv⟩, t₁, t₂, t₃, t₄, ht₁, ht₂, ht₃, ht₄, by
      simp [e₄, e₃, e₂, e₁, counts]⟩
  · rintro ⟨⟨hs, hi, hd, hv⟩, t₁, t₂, t₃, t₄, ht₁, ht₂, ht₃, ht₄, e⟩
    refine ⟨hs, hi, hd, hv, ?_⟩
    obtain ⟨l₁, h₁⟩ : ∃ last, c.staticFields.foldlM FieldItem.encode ⟨c.counts.toArray, none⟩ =
        .ok ⟨(c.counts ++ t₁).toArray, last⟩ :=
      FieldItem.foldlM_encode_eq_ok_iff.mpr ⟨t₁, ht₁, rfl⟩
    obtain ⟨l₂, h₂⟩ : ∃ last, c.instanceFields.foldlM FieldItem.encode
        ⟨(c.counts ++ t₁).toArray, none⟩ = .ok ⟨(c.counts ++ t₁ ++ t₂).toArray, last⟩ :=
      FieldItem.foldlM_encode_eq_ok_iff.mpr ⟨t₂, ht₂, rfl⟩
    obtain ⟨l₃, h₃⟩ : ∃ last, c.directMethods.foldlM (MethodItem.encode l)
        ⟨(c.counts ++ t₁ ++ t₂).toArray, none⟩ =
        .ok ⟨(c.counts ++ t₁ ++ t₂ ++ t₃).toArray, last⟩ :=
      MethodItem.foldlM_encode_eq_ok_iff.mpr ⟨t₃, ht₃, rfl⟩
    obtain ⟨l₄, h₄⟩ : ∃ last, c.virtualMethods.foldlM (MethodItem.encode l)
        ⟨(c.counts ++ t₁ ++ t₂ ++ t₃).toArray, none⟩ = .ok ⟨bytes, last⟩ :=
      MethodItem.foldlM_encode_eq_ok_iff.mpr ⟨t₄, ht₄, e⟩
    refine ⟨⟨_, l₁⟩, ?_, ⟨_, l₂⟩, h₂, ⟨_, l₃⟩, h₃, ⟨bytes, l₄⟩, h₄, rfl⟩
    rw [← h₁]
    congr 2
    apply Array.toList_inj.mp
    simp [counts]

theorem encode_mono {l l' : Layout} (hl : l.Extends l') {c : ClassData} {bytes : Bytes}
    (h : c.encode l = .ok bytes) : c.encode l' = .ok bytes := by
  obtain ⟨hc, t₁, t₂, t₃, t₄, h₁, h₂, h₃, h₄, e⟩ := encode_eq_ok_iff.mp h
  exact encode_eq_ok_iff.mpr ⟨hc, t₁, t₂, t₃, t₄, h₁, h₂, MethodItem.listBytes_mono hl h₃,
    MethodItem.listBytes_mono hl h₄, e⟩

theorem not_lacksOffset_of_encode {l : Layout} {c : ClassData}
    (hbody : ∀ m ∈ c.allMethods, ∀ e, l.offsetOrZero m.body? ≠ .error e) {e : Error}
    (h : c.encode l = .error e) : ¬ e.LacksOffset := by
  simp only [encode, Except.bind_eq_error_iff, Except.pure_ne_error, and_false, exists_false,
    or_false] at h
  rcases h with h | ⟨_, -, h | ⟨_, -, h | ⟨_, -, h | ⟨_, -, h | ⟨_, -, h | ⟨_, -, h |
    ⟨_, -, h⟩⟩⟩⟩⟩⟩⟩
  · exact not_lacksOffset_of_toWord h
  · exact not_lacksOffset_of_toWord h
  · exact not_lacksOffset_of_toWord h
  · exact not_lacksOffset_of_toWord h
  · exact FieldItem.not_lacksOffset_of_foldlM_encode h
  · exact FieldItem.not_lacksOffset_of_foldlM_encode h
  · exact MethodItem.not_lacksOffset_of_foldlM_encode
      (fun m hm => hbody m (Array.mem_append_left _ hm)) h
  · exact MethodItem.not_lacksOffset_of_foldlM_encode
      (fun m hm => hbody m (Array.mem_append_right _ hm)) h

end ClassData

end DexGraph
