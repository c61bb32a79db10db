import DexGraph.Proofs.Assembly.Survey
import DexGraph.Proofs.Bytes.ShortestForm
import DexGraph.Proofs.Codec.WellFormed

/-!
# Members in canonical form

`ClassData.canonical` reads the members of a class whose numbers are in shortest form, in which no
two members of a list have the same index, and in which native methods have no body. If the offsets
of the bodies are those of a layout, class data that a survey reads where this accepts the bytes is
written as these bytes (`ClassData.spells_encode`).
-/

namespace DexGraph

open Survey

/-! ## Offsets and indices that are met -/

/-- The items that a view has are those that lie at the offsets of the layout. -/
def Layout.Answers (l : Layout) (v : View) : Prop :=
  ∀ (s : Section) (o : UInt32) (r : Ref s), s.rowSize? = none → v.find? s o = some r →
    (l.place r).offset = some o

section Steps

variable {α β : Type} {l : Layout} {v : View} {data : Bytes} {p q : Nat} {met : List Pointer}
  {s : Section} {a : α}

namespace Survey

theorem exists_of_decodeWith_bind {d : Graph → Decoder β} {f : β → Survey α}
    (h : (decodeWith d >>= f).Reads v data p a met q) :
    ∃ b m, (d v.graph).Reads data p b m ∧ (f b).Reads v data m a met q := by
  obtain ⟨b, _, m, rest, hb, hrest, rfl⟩ := reads_bind_iff.mp h
  obtain ⟨hread, rfl⟩ := reads_decodeWith_iff.mp hb
  exact ⟨b, m, hread, hrest⟩

theorem exists_of_decode_bind {d : Decoder β} {f : β → Survey α}
    (h : (decode d >>= f).Reads v data p a met q) :
    ∃ b m, d.Reads data p b m ∧ (f b).Reads v data m a met q :=
  exists_of_decodeWith_bind (d := fun _ => d) h

theorem exists_of_ofExcept_bind {x : Except Error β} {f : β → Survey α}
    (h : (decode (Decoder.ofExcept x) >>= f).Reads v data p a met q) :
    ∃ b, x = .ok b ∧ (f b).Reads v data p a met q := by
  obtain ⟨b, m, hb, hrest⟩ := exists_of_decode_bind h
  obtain ⟨hx, rfl⟩ := Decoder.reads_ofExcept_iff.mp hb
  exact ⟨b, hx, hrest⟩

theorem exists_of_resolve_bind {index : UInt32} {f : Ref s → Survey α}
    (h : (resolve s index >>= f).Reads v data p a met q) :
    ∃ r : Ref s, r.slot = index ∧ (f r).Reads v data p a met q := by
  obtain ⟨r, m, hr, hrest⟩ := exists_of_decodeWith_bind h
  obtain ⟨hresolve, rfl⟩ := Decoder.reads_ofExcept_iff.mp hr
  exact ⟨r, congrArg Ref.slot (Graph.resolve_eq_ok_iff.mp hresolve).1, hrest⟩

theorem exists_of_resolveOrNone_bind {index : UInt32} {f : Option (Ref s) → Survey α}
    (h : (resolveOrNone s index >>= f).Reads v data p a met q) :
    ∃ r : Option (Ref s), indexOrNone r = index ∧ (f r).Reads v data p a met q := by
  obtain ⟨r, m, hr, hrest⟩ := exists_of_decodeWith_bind h
  obtain ⟨hresolve, rfl⟩ := Decoder.reads_ofExcept_iff.mp hr
  refine ⟨r, ?_, hrest⟩
  unfold Graph.resolveOrNone Collection.resolveOrNone at hresolve
  split at hresolve
  · rename_i hnone
    cases hresolve
    exact hnone.symm
  · obtain ⟨x, hx, hpure⟩ := Except.bind_eq_ok_iff.mp hresolve
    cases hpure
    exact congrArg Ref.slot (Graph.resolve_eq_ok_iff.mp hx).1

theorem exists_of_item_bind (hl : l.Answers v) (hs : s.rowSize? = none) {o : UInt32}
    {f : Ref s → Survey α} (h : (item s o >>= f).Reads v data p a met q) :
    ∃ r met', l.offsetOf r = .ok o ∧ (f r).Reads v data p a met' q := by
  obtain ⟨r, _, m, rest, hr, hrest, rfl⟩ := reads_bind_iff.mp h
  obtain ⟨hfind, -, rfl⟩ := reads_item_iff.mp hr
  exact ⟨r, rest, Layout.offsetOf_eq_ok_iff.mpr (hl s o r hs hfind), hrest⟩

/-- The layout has the offset for the item that is taken. -/
theorem offsetOrZero_of_item? (hl : l.Answers v) (hs : s.rowSize? = none) {o : UInt32}
    {r : Option (Ref s)} (h : (item? s o).Reads v data p r met q) :
    l.offsetOrZero r = .ok o ∧ q = p := by
  obtain ⟨hfound, hsome, -, hq⟩ := reads_item?_iff.mp h
  refine ⟨?_, hq⟩
  by_cases hzero : o = 0
  · rw [hfound, if_pos hzero, hzero]
    rfl
  · rw [if_neg hzero] at hfound
    obtain ⟨x, rfl⟩ := Option.isSome_iff_exists.mp (hsome hzero)
    exact Layout.offsetOf_eq_ok_iff.mpr (hl s o x hs hfound.symm)

theorem exists_of_item?_bind (hl : l.Answers v) (hs : s.rowSize? = none) {o : UInt32}
    {f : Option (Ref s) → Survey α} (h : (item? s o >>= f).Reads v data p a met q) :
    ∃ r met', l.offsetOrZero r = .ok o ∧ (f r).Reads v data p a met' q := by
  obtain ⟨r, _, m, rest, hr, hrest, rfl⟩ := reads_bind_iff.mp h
  obtain ⟨hoffset, rfl⟩ := offsetOrZero_of_item? hl hs hr
  exact ⟨r, rest, hoffset, hrest⟩

end Survey

end Steps

/-! ## Lists of members -/

/-- The members of a list, with a decoder for what follows the difference of the index. Every
difference counts but that of the first member. -/
def canonicalMembers (details : Decoder Unit) (first : Bool) : (count : Nat) → Decoder Unit
  | 0 => return ()
  | count + 1 => do
    let delta ← Decoder.shortestLeb
    Decoder.require (first = true ∨ delta ≠ 0)
    details
    canonicalMembers details false count

/-- What follows the difference of the index of a field. -/
def FieldItem.canonicalDetails : Decoder Unit :=
  discard Decoder.shortestLeb

/-- What follows the difference of the index of a method. -/
def MethodItem.canonicalDetails : Decoder Unit := do
  let flags ← Decoder.shortestLeb
  let codeOffset ← Decoder.shortestLeb
  Decoder.require ((⟨flags⟩ : AccessFlags).contains .native = true → codeOffset = 0)

/-- The members of a class. -/
def ClassData.canonical : Decoder Unit := do
  let staticCount ← Decoder.shortestLeb
  let instanceCount ← Decoder.shortestLeb
  let directCount ← Decoder.shortestLeb
  let virtualCount ← Decoder.shortestLeb
  canonicalMembers FieldItem.canonicalDetails true staticCount.toNat
  canonicalMembers FieldItem.canonicalDetails true instanceCount.toNat
  canonicalMembers MethodItem.canonicalDetails true directCount.toNat
  canonicalMembers MethodItem.canonicalDetails true virtualCount.toNat

/-- The difference that is written for a member is the one from which its index has been computed,
if it counts. -/
theorem memberDelta_of_nextIndex {last : Option UInt32} {index delta : UInt32}
    (h : nextIndex (last.getD 0) delta = .ok index) (hdelta : last.isNone = true ∨ delta ≠ 0) :
    memberDelta last index = .ok delta := by
  unfold nextIndex at h
  split at h
  · rename_i hlt
    cases h
    cases last with
    | none => simp [memberDelta]
    | some p =>
      have hne : delta.toNat ≠ 0 := fun hzero =>
        hdelta.elim (by simp) fun hne => hne (UInt32.toNat_inj.mp hzero)
      rw [Option.getD_some] at hlt
      have hsum : (p + delta).toNat = p.toNat + delta.toNat := by
        rw [UInt32.toNat_add]
        exact Nat.mod_eq_of_lt hlt
      have hnot : ¬ p + delta ≤ p := by
        rw [UInt32.le_iff_toNat_le]
        omega
      rw [Option.getD_some, memberDelta, if_neg hnot]
      refine congrArg Except.ok (UInt32.toNat_inj.mp ?_)
      rw [UInt32.toNat_sub_of_le _ _ (UInt32.le_iff_toNat_le.mpr (by omega)), hsum]
      omega
  · cases h

section Lists

variable {l : Layout} {v : View} {data : Bytes} {p q r : Nat} {last : Option UInt32} {count : Nat}

/-- The form of a list is that of its first member and that of the others behind it. -/
theorem spells_memberBytes_cons {α : Type} {f : α → UInt32} {details : α → Except Error Bytes}
    {x : α} {rest : List α} {delta : UInt32} {detail : Bytes} {m n : Nat}
    (hdelta : memberDelta last (f x) = .ok delta) (hdetail : details x = .ok detail)
    (hfirst : data.Spells p m (.ok (Leb128.encodeUnsigned delta).toList))
    (hsecond : data.Spells m n (.ok detail.toList))
    (hrest : data.Spells n q (memberBytes f details (some (f x)) rest)) :
    data.Spells p q (memberBytes f details last (x :: rest)) := by
  rw [memberBytes, hdelta, hdetail]
  exact (hfirst.append hsecond).append hrest

variable (last) in
theorem FieldItem.spells_decodeFrom {g : Graph} {fields all : Array FieldItem}
    (h : (decodeFrom g (last.getD 0) fields count).Reads data p all q)
    {u : Unit} (hwalk : (canonicalMembers canonicalDetails last.isNone count).Reads data p u r) :
    r = q ∧ ∃ new, new.length = count ∧ all.toList = fields.toList ++ new ∧
      data.Spells p q (memberBytes (·.field.slot) details last new) := by
  induction count generalizing last fields p with
  | zero =>
    obtain ⟨rfl, rfl⟩ := Decoder.reads_pure_iff.mp h
    obtain ⟨-, rfl⟩ := Decoder.reads_pure_iff.mp hwalk
    exact ⟨rfl, [], rfl, by simp, Bytes.spells_nil⟩
  | succ count ih =>
    simp only [decodeFrom, Decoder.reads_bind_iff, Decoder.reads_ofExcept_iff] at h
    obtain ⟨delta, m, hdelta, index, _, ⟨hindex, rfl⟩, flags, n, hflags, field, _, ⟨hfield, rfl⟩,
      hrest⟩ := h
    obtain ⟨rfl, -⟩ := Graph.resolve_eq_ok_iff.mp hfield
    obtain ⟨_, _, hdelta', hwalk⟩ := Decoder.reads_bind_iff.mp hwalk
    obtain ⟨rfl, rfl, hspells⟩ := Decoder.shortestLeb_eq hdelta hdelta'
    obtain ⟨hcounts, hwalk⟩ := Decoder.reads_require_bind_iff.mp hwalk
    obtain ⟨_, _, hdetails, hothers⟩ := Decoder.reads_bind_iff.mp hwalk
    obtain ⟨flags, hflags'⟩ := Decoder.reads_discard_iff.mp hdetails
    obtain ⟨rfl, rfl, hflagBytes⟩ := Decoder.shortestLeb_eq hflags hflags'
    obtain ⟨rfl, new, rfl, hall, htail⟩ := ih (some index) hrest hothers
    have hlist := spells_memberBytes_cons (x := (⟨⟨flags⟩, ⟨index⟩, none⟩ : FieldItem))
      (memberDelta_of_nextIndex hindex hcounts) rfl hspells hflagBytes htail
    refine ⟨rfl, _ :: new, rfl, ?_, hlist⟩
    rw [hall, Array.toList_push, List.append_assoc, List.singleton_append]

variable (last) in
theorem MethodItem.spells_surveyFrom (hl : l.Answers v) {methods all : Array MethodItem}
    {met : List Pointer} (h : (surveyFrom (last.getD 0) methods count).Reads v data p all met q)
    {u : Unit} (hwalk : (canonicalMembers canonicalDetails last.isNone count).Reads data p u r) :
    r = q ∧ ∃ new, new.length = count ∧ all.toList = methods.toList ++ new ∧
      data.Spells p q (memberBytes (·.method.slot) (details l) last new) := by
  induction count generalizing last methods p met with
  | zero =>
    obtain ⟨rfl, -, rfl⟩ := reads_pure_iff.mp h
    obtain ⟨-, rfl⟩ := Decoder.reads_pure_iff.mp hwalk
    exact ⟨rfl, [], rfl, by simp, Bytes.spells_nil⟩
  | succ count ih =>
    obtain ⟨delta, _, hdelta, h⟩ := exists_of_decode_bind h
    obtain ⟨index, hindex, h⟩ := exists_of_ofExcept_bind h
    obtain ⟨flags, _, hflags, h⟩ := exists_of_decode_bind h
    obtain ⟨codeOffset, _, hcodeOffset, h⟩ := exists_of_decode_bind h
    obtain ⟨method, rfl, h⟩ := exists_of_resolve_bind h
    obtain ⟨code, _, hoffset, hrest⟩ := exists_of_item?_bind hl rfl h
    obtain ⟨_, _, hdelta', hwalk⟩ := Decoder.reads_bind_iff.mp hwalk
    obtain ⟨rfl, rfl, hspells⟩ := Decoder.shortestLeb_eq hdelta hdelta'
    obtain ⟨hcounts, hwalk⟩ := Decoder.reads_require_bind_iff.mp hwalk
    obtain ⟨_, _, hdetails, hothers⟩ := Decoder.reads_bind_iff.mp hwalk
    obtain ⟨flags, _, hflags', hdetails⟩ := Decoder.reads_bind_iff.mp hdetails
    obtain ⟨rfl, rfl, hflagBytes⟩ := Decoder.shortestLeb_eq hflags hflags'
    obtain ⟨codeOffset, _, hcodeOffset', hrequire⟩ := Decoder.reads_bind_iff.mp hdetails
    obtain ⟨rfl, rfl, hcodeBytes⟩ := Decoder.shortestLeb_eq hcodeOffset hcodeOffset'
    obtain ⟨hnative, rfl⟩ := Decoder.reads_require_iff.mp hrequire
    obtain ⟨rfl, new, rfl, hall, htail⟩ := ih (some method.slot) hrest hothers
    have hbody : l.offsetOrZero (⟨⟨flags⟩, method, code, none⟩ : MethodItem).body? =
        .ok codeOffset := by
      unfold body?
      split
      · rename_i hflag
        rw [hnative hflag]
        rfl
      · exact hoffset
    have hdetail : (⟨⟨flags⟩, method, code, none⟩ : MethodItem).details l =
        .ok (Leb128.encodeUnsigned flags ++ Leb128.encodeUnsigned codeOffset) := by
      rw [details, hbody]
      rfl
    have hlist := spells_memberBytes_cons (f := fun m : MethodItem => m.method.slot)
      (memberDelta_of_nextIndex hindex hcounts) hdetail hspells
      (Array.toList_append ▸ hflagBytes.append hcodeBytes) htail
    refine ⟨rfl, _ :: new, rfl, ?_, hlist⟩
    rw [hall, Array.toList_push, List.append_assoc, List.singleton_append]

end Lists

/-- A list that has been read has as many members as were counted, so the number that is written
for it is the one that was read. -/
private theorem toUInt32_size_of_counted {α : Type} {xs : Array α} {new : List α} {count : UInt32}
    (hlength : new.length = count.toNat) (hlist : xs.toList = (#[] : Array α).toList ++ new) :
    xs.toList = new ∧ xs.size < 2 ^ 32 ∧ xs.size.toUInt32 = count := by
  obtain rfl : xs.toList = new := hlist
  rw [Array.length_toList] at hlength
  rw [hlength]
  exact ⟨rfl, count.toNat_lt, UInt32.ofNat_toNat⟩

/-- Class data that is read where it is in canonical form is written as it is stored. -/
theorem ClassData.spells_encode {l : Layout} {v : View} {data : Bytes} {p q r : Nat}
    (hl : l.Answers v) {x : ClassData} {met : List Pointer} (h : survey.Reads v data p x met q)
    {u : Unit} (hwalk : canonical.Reads data p u r) :
    data.Spells p q ((fun bytes : Bytes => bytes.toList) <$> x.encode l) := by
  obtain ⟨staticCount, _, hstaticCount, h⟩ := exists_of_decode_bind h
  obtain ⟨instanceCount, _, hinstanceCount, h⟩ := exists_of_decode_bind h
  obtain ⟨directCount, _, hdirectCount, h⟩ := exists_of_decode_bind h
  obtain ⟨virtualCount, _, hvirtualCount, h⟩ := exists_of_decode_bind h
  obtain ⟨static, _, hstatic, h⟩ := exists_of_decodeWith_bind h
  obtain ⟨inst, _, hinst, h⟩ := exists_of_decodeWith_bind h
  obtain ⟨direct, _, _, _, hdirect, h, -⟩ := reads_bind_iff.mp h
  obtain ⟨virtual, _, _, _, hvirtual, h, -⟩ := reads_bind_iff.mp h
  obtain ⟨rfl, -, rfl⟩ := reads_pure_iff.mp h
  simp only [canonical, Decoder.reads_bind_iff] at hwalk
  obtain ⟨staticCount', _, hstaticCount', instanceCount', _, hinstanceCount', directCount', _,
    hdirectCount', virtualCount', members, hvirtualCount', _, _, hstatic', _, _, hinst', _, _,
    hdirect', hvirtual'⟩ := hwalk
  obtain ⟨rfl, rfl, hstaticCount⟩ := Decoder.shortestLeb_eq hstaticCount hstaticCount'
  obtain ⟨rfl, rfl, hinstanceCount⟩ := Decoder.shortestLeb_eq hinstanceCount hinstanceCount'
  obtain ⟨rfl, rfl, hdirectCount⟩ := Decoder.shortestLeb_eq hdirectCount hdirectCount'
  obtain ⟨rfl, rfl, hvirtualCount⟩ := Decoder.shortestLeb_eq hvirtualCount hvirtualCount'
  obtain ⟨rfl, static', hstaticLength, hstaticList, hstaticBytes⟩ :=
    FieldItem.spells_decodeFrom none hstatic hstatic'
  obtain ⟨rfl, inst', hinstLength, hinstList, hinstBytes⟩ :=
    FieldItem.spells_decodeFrom none hinst hinst'
  obtain ⟨rfl, direct', hdirectLength, hdirectList, hdirectBytes⟩ :=
    MethodItem.spells_surveyFrom none hl hdirect hdirect'
  obtain ⟨rfl, virtual', hvirtualLength, hvirtualList, hvirtualBytes⟩ :=
    MethodItem.spells_surveyFrom none hl hvirtual hvirtual'
  obtain ⟨rfl, hstaticSize, hstaticWord⟩ := toUInt32_size_of_counted hstaticLength hstaticList
  obtain ⟨rfl, hinstSize, hinstWord⟩ := toUInt32_size_of_counted hinstLength hinstList
  obtain ⟨rfl, hdirectSize, hdirectWord⟩ := toUInt32_size_of_counted hdirectLength hdirectList
  obtain ⟨rfl, hvirtualSize, hvirtualWord⟩ := toUInt32_size_of_counted hvirtualLength hvirtualList
  have hcounts : data.Spells p members (.ok (⟨none, static, inst, direct, virtual⟩ : ClassData).counts) := by
    unfold counts
    rw [hstaticWord, hinstWord, hdirectWord, hvirtualWord]
    exact ((hstaticCount.append hinstanceCount).append hdirectCount).append hvirtualCount
  obtain ⟨part, hpart, hat, hend⟩ := (((hcounts.append hstaticBytes).append hinstBytes).append
    hdirectBytes).append hvirtualBytes
  simp only [Except.bind_eq_ok_iff, Except.pure_eq_ok_iff] at hpart
  obtain ⟨_, ⟨_, ⟨_, ⟨_, ⟨⟩, statics, hstatics, rfl⟩, insts, hinsts, rfl⟩, directs, hdirects, rfl⟩,
    virtuals, hvirtuals, rfl⟩ := hpart
  refine ⟨_, ?_, hat, hend⟩
  have hencode : encode l ⟨none, static, inst, direct, virtual⟩ = .ok (List.toArray _) :=
    encode_eq_ok_iff.mpr ⟨⟨hstaticSize, hinstSize, hdirectSize, hvirtualSize⟩, statics, insts,
      directs, virtuals, hstatics, hinsts, hdirects, hvirtuals, rfl⟩
  rw [hencode]
  rfl

end DexGraph
