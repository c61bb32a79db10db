import DexGraph.Codec.HiddenApi
import DexGraph.Proofs.Codec.Entity
import DexGraph.Proofs.Writing.Establishes

/-!
# The parts of an image

An image is made of parts: the header, the tables, the data items, the hidden-API flags, the map
list and the link data. A `Block` is a part with the range it takes up. While an image is laid out
anew blocks are only ever put behind each other, some of them as room that is filled in later.

`Progress` is the invariant of this process: the blocks follow each other, what has been stored
lies inside them, the layout records where they are, and every block holds what belongs there or
is still blank. Three lemmas carry it from step to step: `Progress.relabel` for steps that add
nothing, `Progress.push` for a new block behind all others, and `Progress.fill` for storing what a
blank block has been waiting for.
-/

namespace DexGraph

/-- A part of an image. -/
inductive Part
  | header
  | table (s : Section)
  | item (s : Section) (r : Ref s)
  | hiddenapi
  | mapList
  | linkData

namespace Part

/-- The alignment of a part. -/
def alignment : Part → Nat
  | header | linkData => 1
  | table s => s.alignment
  | item s _ => s.alignment
  | hiddenapi => MapItemType.hiddenapiClassData.alignment
  | mapList => Writer.dataAlignment

/-- Whether a part comes before the data section. -/
def IsHead : Part → Prop
  | header | table _ => True
  | _ => False

/-- What an image holds for a part under a layout. The header is not described here, since it is
put in front only when the rest of the image is finished. -/
def Holds (g : Graph) (l : Layout) : Part → Stream → Prop
  | header, _ => False
  | table s, content =>
    ∃ rows, Bytes.pieces (fun x => Stream.toBytes <$> s.encode l x) (g.entities s).items.toList =
      .ok rows ∧ content = .ofBytes rows.toArray
  | item s r, content => ∃ x, g.get? r = some x ∧ s.encode l x = .ok content
  | hiddenapi, content => ∃ flags size, g.hiddenapi = some flags ∧ flags.encode size = .ok content
  | mapList, content =>
    ∃ list bytes, mapListOf g l = .ok list ∧ list.encode = .ok bytes ∧ content = .ofBytes bytes
  | linkData, content => content = .ofBytes g.linkData

end Part

/-- The order of the section lists the one entity before the other. -/
def Graph.Lists (g : Graph) {s : Section} (r r' : Ref s) : Prop :=
  [r, r'].Sublist (g.entities s).order.toList

/-- In a list that is split, what stands before the split comes before what stands behind it. -/
theorem sublist_pair_of_split {α : Type} {xs done rest : List α} {x y : α}
    (hsplit : xs = done ++ y :: rest) (hx : x ∈ done) : [x, y].Sublist xs := by
  have hfirst : [x].Sublist done := List.singleton_sublist.mpr hx
  have hsecond : [y].Sublist (y :: rest) := List.singleton_sublist.mpr List.mem_cons_self
  exact hsplit ▸ hfirst.append hsecond

/-- Of two entities only one is listed before the other. -/
theorem Graph.Lists.asymm {g : Graph} (hg : g.Sound) {s : Section} {r r' : Ref s}
    (h : g.Lists r r') : ¬ g.Lists r' r := by
  have hnodup := (hg.coherent s).nodup_order
  have hindices : (g.entities s).order.toList.Pairwise fun a b =>
      (g.entities s).order.toList.idxOf a < (g.entities s).order.toList.idxOf b := by
    refine List.pairwise_iff_getElem.mpr fun i j hi hj hij => ?_
    rwa [hnodup.idxOf_getElem i hi, hnodup.idxOf_getElem j hj]
  rw [List.pairwise_iff_forall_sublist] at hindices
  exact fun h' => Nat.lt_asymm (hindices h) (hindices h')

/-- Data items of one section come in the order of the section. -/
def Part.InTurn (g : Graph) (p q : Part) : Prop :=
  ∀ (s : Section) (r r' : Ref s), p = .item s r → q = .item s r' → g.Lists r r'

/-- A part of an image and the range it takes up. -/
structure Block where
  part : Part
  start : Nat
  stop : Nat

namespace Block

/-- The layout says where the block is. A data item has the size of its image, whatever else is
going to be placed. -/
def Recorded (g : Graph) (l : Layout) (b : Block) : Prop :=
  match b.part with
  | .header => b.start = 0 ∧ b.stop = FileHeader.byteSize
  | .table s =>
    l.sectionOffset s = some b.start.toUInt32 ∧ g.count s ≠ 0 ∧
      ∃ n, s.rowSize? = some n ∧ b.stop = b.start + g.count s * n ∧
        ∀ r : Ref s, g.Has s r → (l.place r).offset = some (b.start + r.pos * n).toUInt32
  | .item s r =>
    s.rowSize? = none ∧ l.place r = ⟨some b.start.toUInt32, (b.stop - b.start).toUInt32⟩ ∧
      ∃ x, g.get? r = some x ∧ ∀ l' item, l.Extends l' → s.encode l' x = .ok item →
        item.length = b.stop - b.start
  | .hiddenapi =>
    l.hiddenapi = ⟨some b.start.toUInt32, (b.stop - b.start).toUInt32⟩ ∧ g.hiddenapi.isSome
  | .mapList => l.mapOffset = b.start.toUInt32
  | .linkData => l.linkOffset = b.start.toUInt32 ∧ b.stop = b.start + g.linkData.size ∧
      g.linkData.size ≠ 0

/-- The output has in the range of the block what belongs there. -/
def Filled (g : Graph) (d : Draft) (b : Block) : Prop :=
  ∃ content, b.part.Holds g d.layout content ∧ content.length = b.stop - b.start ∧
    ∀ i < content.length, d.stream.byteAt? (b.start + i) = content.byteAt? i

/-- Nothing has been stored in the range of the block. -/
def Blank (d : Draft) (b : Block) : Prop :=
  ∀ i, b.start ≤ i → i < b.stop → d.stream.byteAt? i = none

theorem disjoint_of_ordered {blocks : List Block}
    (h : blocks.Pairwise fun a b => a.stop ≤ b.start) {a b : Block} (ha : a ∈ blocks)
    (hb : b ∈ blocks) (hne : a.part ≠ b.part) : a.stop ≤ b.start ∨ b.stop ≤ a.start := by
  have hpair : blocks.Pairwise fun a b => a.stop ≤ b.start ∨ b.stop ≤ a.start :=
    h.imp fun hab => .inl hab
  have : Std.Symm fun a b : Block => a.stop ≤ b.start ∨ b.stop ≤ a.start :=
    ⟨fun _ _ hab => hab.symm⟩
  refine hpair.forall ha hb ?_
  rintro rfl
  exact hne rfl

theorem eq_of_distinct {blocks : List Block} (h : blocks.Pairwise fun a b => a.part ≠ b.part)
    {a b : Block} (ha : a ∈ blocks) (hb : b ∈ blocks) (heq : a.part = b.part) : a = b := by
  have : Std.Symm fun a b : Block => a.part ≠ b.part := ⟨fun _ _ hab => hab.symm⟩
  by_contra hne
  exact h.forall ha hb hne heq

end Block

/-! ## Changes that keep what is recorded -/

/-- A change of the layout that keeps the places of the parts that an image has so far. -/
structure Layout.Keeps (g : Graph) (parts : Part → Prop) (l l' : Layout) : Prop where
  place : ∀ (s : Section) (r : Ref s) (o : UInt32), (l.place r).offset = some o →
    l'.place r = l.place r
  section_some : ∀ s o, l.sectionOffset s = some o → l'.sectionOffset s = some o
  hiddenapi : ∀ o, l.hiddenapi.offset = some o → l'.hiddenapi = l.hiddenapi
  mapList : parts .mapList → l'.mapOffset = l.mapOffset ∧ mapListOf g l' = mapListOf g l
  linkData : parts .linkData → l'.linkOffset = l.linkOffset

variable {g : Graph} {parts : Part → Prop} {l l' : Layout}

theorem Layout.Keeps.extends (h : l.Keeps g parts l') : l.Extends l' :=
  fun s r o ho => by rw [h.place s r o ho, ho]

theorem Layout.Keeps.refl (l : Layout) : l.Keeps g parts l :=
  ⟨fun _ _ _ _ => rfl, fun _ _ h => h, fun _ _ => rfl, fun _ => ⟨rfl, rfl⟩, fun _ => rfl⟩

theorem Part.Holds.keeps {p : Part} {content : Stream} (h : p.Holds g l content)
    (hl : l.Keeps g parts l') (hp : parts p) : p.Holds g l' content := by
  cases p with
  | header => exact h
  | table s =>
    obtain ⟨rows, hrows, hcontent⟩ := h
    refine ⟨rows, Bytes.pieces_congr hrows fun x _ part hx => ?_, hcontent⟩
    cases hx' : s.encode l x with
    | error e => rw [hx'] at hx; cases hx
    | ok item => rw [Section.encode_mono hl.extends hx', ← hx, hx']
  | item s r =>
    obtain ⟨x, hx, hitem⟩ := h
    exact ⟨x, hx, Section.encode_mono hl.extends hitem⟩
  | hiddenapi => exact h
  | mapList =>
    obtain ⟨list, bytes, hlist, h⟩ := h
    exact ⟨list, bytes, (hl.mapList hp).2.trans hlist, h⟩
  | linkData => exact h

theorem Block.Recorded.keeps {b : Block} (h : b.Recorded g l) (hl : l.Keeps g parts l')
    (hp : parts b.part) : b.Recorded g l' := by
  obtain ⟨part, start, stop⟩ := b
  cases part with
  | header => exact h
  | table s =>
    obtain ⟨hs, hcount, n, hn, hstop, hrows⟩ := h
    exact ⟨hl.section_some s _ hs, hcount, n, hn, hstop,
      fun r hr => hl.extends s r _ (hrows r hr)⟩
  | item s r =>
    obtain ⟨hs, hplace, x, hx, hsize⟩ := h
    refine ⟨hs, ?_, x, hx, fun l'' item hl'' => hsize l'' item (hl.extends.trans hl'')⟩
    rw [hl.place s r _ (by rw [hplace]), hplace]
  | hiddenapi => exact ⟨by rw [hl.hiddenapi _ (by rw [h.1]), h.1], h.2⟩
  | mapList => exact (hl.mapList hp).1.trans h
  | linkData => exact ⟨(hl.linkData hp).trans h.1, h.2⟩

/-! ## The invariant -/

/-- How far the layout of an image has come: its tables are being placed, its data section is open,
or its data section has been closed. -/
inductive Stage
  | tables
  | data
  | closed

/-- The blocks of an image that is being laid out anew, of which those of the parts `todo` are
still blank. -/
structure Progress (g : Graph) (parts todo : Part → Prop) (stage : Stage) (blocks : List Block)
    (d : Draft) : Prop where
  parts_iff : ∀ p, parts p ↔ ∃ b ∈ blocks, b.part = p
  distinct : blocks.Pairwise fun a b => a.part ≠ b.part
  ordered : blocks.Pairwise fun a b => a.stop ≤ b.start
  inTurn : blocks.Pairwise fun a b => a.part.InTurn g b.part
  within : ∀ b ∈ blocks, b.start ≤ b.stop ∧ b.stop ≤ d.stream.length
  aligned : ∀ b ∈ blocks, b.part.alignment ∣ b.start
  covered : ∀ i v, d.stream.byteAt? i = some v → ∃ b ∈ blocks, b.start ≤ i ∧ i < b.stop
  recorded : ∀ b ∈ blocks, b.Recorded g d.layout
  blank : ∀ b ∈ blocks, todo b.part → b.Blank d
  filled : ∀ b ∈ blocks, ¬ todo b.part → b.Filled g d
  least : ∀ s, s.rowSize? = none → ∀ o, d.layout.sectionOffset s = some o →
    (∃ b ∈ blocks, b.start = o.toNat ∧ ∃ r, b.part = .item s r) ∧
      ∀ b ∈ blocks, ∀ r, b.part = .item s r → o.toNat ≤ b.start
  heads : stage = .tables → ∀ b ∈ blocks, b.part.IsHead
  opened : stage ≠ .tables → Writer.dataAlignment ∣ d.layout.dataOffset.toNat ∧
    d.layout.dataOffset.toNat ≤ d.stream.length ∧ ∀ b ∈ blocks, (b.part.IsHead → b.stop ≤ d.layout.dataOffset.toNat) ∧
      (¬ b.part.IsHead → d.layout.dataOffset.toNat ≤ b.start)
  closed : stage = .closed →
    Writer.dataAlignment ∣ d.layout.dataOffset.toNat + d.layout.dataSize.toNat ∧
      ∀ b ∈ blocks, b.part ≠ .linkData →
        b.stop ≤ d.layout.dataOffset.toNat + d.layout.dataSize.toNat

/-- What a step may do to the parts of the layout that no block records. -/
structure Layout.SameFrame (stage : Stage) (l l' : Layout) : Prop where
  section_eq : ∀ s, s.rowSize? = none → l'.sectionOffset s = l.sectionOffset s
  dataOffset : stage ≠ .tables → l'.dataOffset = l.dataOffset
  dataSize : stage = .closed → l'.dataSize = l.dataSize

theorem Layout.SameFrame.refl (stage : Stage) (l : Layout) : l.SameFrame stage l :=
  ⟨fun _ _ => rfl, fun _ => rfl, fun _ => rfl⟩

namespace Progress

variable {todo : Part → Prop} {stage : Stage} {blocks : List Block} {d d' : Draft}

/-- The blocks of different parts do not overlap. -/
theorem disjoint (h : Progress g parts todo stage blocks d) {a b : Block} (ha : a ∈ blocks)
    (hb : b ∈ blocks) (hne : a.part ≠ b.part) : a.stop ≤ b.start ∨ b.stop ≤ a.start :=
  Block.disjoint_of_ordered h.ordered ha hb hne

/-- Every part has one block. -/
theorem eq_of_part_eq (h : Progress g parts todo stage blocks d) {a b : Block} (ha : a ∈ blocks)
    (hb : b ∈ blocks) (heq : a.part = b.part) : a = b :=
  Block.eq_of_distinct h.distinct ha hb heq

theorem part_mem (h : Progress g parts todo stage blocks d) {b : Block} (hb : b ∈ blocks) :
    parts b.part :=
  (h.parts_iff b.part).mpr ⟨b, hb, rfl⟩

/-- A block stays filled if its range and the places of all parts stay as they are. -/
theorem filled_of_same (h : Progress g parts todo stage blocks d)
    (hkeeps : d.layout.Keeps g parts d'.layout) {b : Block} (hb : b ∈ blocks)
    (hsame : ∀ i, b.start ≤ i → i < b.stop → d'.stream.byteAt? i = d.stream.byteAt? i)
    (hfill : b.Filled g d) : b.Filled g d' := by
  obtain ⟨content, hholds, hlen, hbytes⟩ := hfill
  refine ⟨content, hholds.keeps hkeeps (h.part_mem hb), hlen, fun i hi => ?_⟩
  rw [hsame (b.start + i) (Nat.le_add_right ..) (by omega), hbytes i hi]

/-- A step that adds no block and stores nothing. -/
theorem relabel (h : Progress g parts todo stage blocks d)
    (hbytes : ∀ i, d'.stream.byteAt? i = d.stream.byteAt? i)
    (hlen : d.stream.length ≤ d'.stream.length)
    (hkeeps : d.layout.Keeps g parts d'.layout) (hframe : d.layout.SameFrame stage d'.layout) :
    Progress g parts todo stage blocks d' where
  parts_iff := h.parts_iff
  distinct := h.distinct
  ordered := h.ordered
  inTurn := h.inTurn
  within b hb := ⟨(h.within b hb).1, Nat.le_trans (h.within b hb).2 hlen⟩
  aligned := h.aligned
  covered i v hi := h.covered i v (by rw [← hbytes, hi])
  recorded b hb := (h.recorded b hb).keeps hkeeps (h.part_mem hb)
  blank b hb ht i h₁ h₂ := by rw [hbytes, h.blank b hb ht i h₁ h₂]
  filled b hb ht := h.filled_of_same hkeeps hb (fun i _ _ => hbytes i) (h.filled b hb ht)
  least s hs o ho := h.least s hs o (by rw [← hframe.section_eq s hs, ho])
  heads := h.heads
  opened hst := by
    rw [hframe.dataOffset hst]
    exact ⟨(h.opened hst).1, Nat.le_trans (h.opened hst).2.1 hlen, (h.opened hst).2.2⟩
  closed hst := by
    rw [hframe.dataOffset (by rw [hst]; rintro ⟨⟩), hframe.dataSize hst]
    exact h.closed hst

/-- A step that puts a new block behind all others. -/
theorem push (h : Progress g parts todo stage blocks d) {p : Part} {start stop : Nat}
    (hnew : ¬ parts p) (hstart : d.stream.length ≤ start) (hstop : start ≤ stop)
    (halign : p.alignment ∣ start) (hlen : stop ≤ d'.stream.length)
    (hbytes : ∀ i, ¬ (start ≤ i ∧ i < stop) → d'.stream.byteAt? i = d.stream.byteAt? i)
    (hkeeps : d.layout.Keeps g parts d'.layout) (hframe : d.layout.SameFrame stage d'.layout)
    (hrec : Block.Recorded g d'.layout ⟨p, start, stop⟩)
    (hhead : p.IsHead ↔ stage = .tables) (hlink : stage = .closed → p = .linkData)
    (hless : ∀ s r, p = .item s r → d'.layout.sectionOffset s = none)
    (hturn : ∀ q, parts q → q.InTurn g p)
    {todo' : Part → Prop} (htodo : ∀ q, parts q → (todo' q ↔ todo q))
    (hblank : todo' p → Block.Blank d' ⟨p, start, stop⟩)
    (hfilled : ¬ todo' p → Block.Filled g d' ⟨p, start, stop⟩) :
    Progress g (fun q => parts q ∨ q = p) todo' stage (blocks ++ [⟨p, start, stop⟩]) d' := by
  have hmem {q : Block → Prop} (hold : ∀ b ∈ blocks, q b) (hnew : q ⟨p, start, stop⟩) :
      ∀ b ∈ blocks ++ [⟨p, start, stop⟩], q b := by
    intro b hb
    rcases List.mem_append.mp hb with hb | hb
    · exact hold b hb
    · obtain rfl := List.mem_singleton.mp hb
      exact hnew
  have hsame {b : Block} (hb : b ∈ blocks) {i : Nat} (hi : i < b.stop) :
      d'.stream.byteAt? i = d.stream.byteAt? i := by
    have := (h.within b hb).2
    exact hbytes i (by omega)
  constructor
  case parts_iff =>
    intro q
    simp only [List.mem_append, List.mem_singleton, or_and_right, exists_or, exists_eq_left,
      h.parts_iff q]
    exact or_congr_right eq_comm
  case distinct =>
    refine List.pairwise_append.mpr ⟨h.distinct, List.pairwise_singleton .., fun a ha b hb => ?_⟩
    obtain rfl := List.mem_singleton.mp hb
    rintro rfl
    exact hnew (h.part_mem ha)
  case ordered =>
    refine List.pairwise_append.mpr ⟨h.ordered, List.pairwise_singleton .., fun a ha b hb => ?_⟩
    obtain rfl := List.mem_singleton.mp hb
    exact Nat.le_trans (h.within a ha).2 hstart
  case inTurn =>
    refine List.pairwise_append.mpr ⟨h.inTurn, List.pairwise_singleton .., fun a ha b hb => ?_⟩
    obtain rfl := List.mem_singleton.mp hb
    exact hturn a.part (h.part_mem ha)
  case within =>
    exact hmem (fun b hb => ⟨(h.within b hb).1, by have := (h.within b hb).2; omega⟩)
      ⟨hstop, hlen⟩
  case aligned => exact hmem h.aligned halign
  case covered =>
    intro i v hi
    by_cases hin : start ≤ i ∧ i < stop
    · exact ⟨_, List.mem_append_right _ List.mem_cons_self, hin⟩
    · rw [hbytes i hin] at hi
      obtain ⟨b, hb, hr⟩ := h.covered i v hi
      exact ⟨b, List.mem_append_left _ hb, hr⟩
  case recorded =>
    exact hmem (fun b hb => (h.recorded b hb).keeps hkeeps (h.part_mem hb)) hrec
  case blank =>
    refine hmem (fun b hb ht i h₁ h₂ => ?_) hblank
    rw [hsame hb h₂, h.blank b hb ((htodo _ (h.part_mem hb)).mp ht) i h₁ h₂]
  case filled =>
    refine hmem (fun b hb ht => ?_) hfilled
    exact h.filled_of_same hkeeps hb (fun i _ hi => hsame hb hi)
      (h.filled b hb fun ht' => ht ((htodo _ (h.part_mem hb)).mpr ht'))
  case least =>
    intro s hs o ho
    have ho' := ho
    rw [hframe.section_eq s hs] at ho'
    obtain ⟨⟨b, hb, hfirst⟩, hleast⟩ := h.least s hs o ho'
    refine ⟨⟨b, List.mem_append_left _ hb, hfirst⟩, hmem hleast fun r hr => ?_⟩
    rw [hless s r hr] at ho
    cases ho
  case heads =>
    exact fun hst => hmem (h.heads hst) (hhead.mpr hst)
  case opened =>
    intro hst
    rw [hframe.dataOffset hst]
    have hdata := (h.opened hst).2.1
    exact ⟨(h.opened hst).1, by omega, hmem (h.opened hst).2.2
      ⟨fun hp => absurd (hhead.mp hp) hst, fun _ => Nat.le_trans hdata hstart⟩⟩
  case closed =>
    intro hst
    rw [hframe.dataOffset (by rw [hst]; rintro ⟨⟩), hframe.dataSize hst]
    exact ⟨(h.closed hst).1, hmem (h.closed hst).2 fun hne => absurd (hlink hst) hne⟩

/-- A step that stores what a blank block has been waiting for. -/
theorem fill (h : Progress g parts todo stage blocks d) {b : Block} (hb : b ∈ blocks)
    (hlen : d.stream.length ≤ d'.stream.length)
    (hbytes : ∀ i, ¬ (b.start ≤ i ∧ i < b.stop) → d'.stream.byteAt? i = d.stream.byteAt? i)
    (hkeeps : d.layout.Keeps g parts d'.layout) (hframe : d.layout.SameFrame stage d'.layout)
    {todo' : Part → Prop} (htodo : ∀ q, todo' q ↔ todo q ∧ q ≠ b.part)
    (hfilled : b.Filled g d') :
    Progress g parts todo' stage blocks d' := by
  have hsame {b' : Block} (hb' : b' ∈ blocks) (hne : b'.part ≠ b.part) (i : Nat)
      (h₁ : b'.start ≤ i) (h₂ : i < b'.stop) : d'.stream.byteAt? i = d.stream.byteAt? i := by
    have := h.disjoint hb' hb hne
    exact hbytes i (by omega)
  constructor
  case parts_iff => exact h.parts_iff
  case distinct => exact h.distinct
  case ordered => exact h.ordered
  case inTurn => exact h.inTurn
  case within => exact fun b hb => ⟨(h.within b hb).1, Nat.le_trans (h.within b hb).2 hlen⟩
  case aligned => exact h.aligned
  case covered =>
    intro i v hi
    by_cases hin : b.start ≤ i ∧ i < b.stop
    · exact ⟨b, hb, hin⟩
    · rw [hbytes i hin] at hi
      exact h.covered i v hi
  case recorded => exact fun b hb => (h.recorded b hb).keeps hkeeps (h.part_mem hb)
  case blank =>
    intro b' hb' ht i h₁ h₂
    obtain ⟨ht, hne⟩ := (htodo _).mp ht
    rw [hsame hb' hne i h₁ h₂, h.blank b' hb' ht i h₁ h₂]
  case filled =>
    intro b' hb' ht
    by_cases hp : b'.part = b.part
    · rwa [h.eq_of_part_eq hb' hb hp]
    · refine h.filled_of_same hkeeps hb' (hsame hb' hp) (h.filled b' hb' fun ht' => ht ?_)
      exact (htodo _).mpr ⟨ht', hp⟩
  case least => exact fun s hs o ho => h.least s hs o (by rw [← hframe.section_eq s hs, ho])
  case heads => exact h.heads
  case opened =>
    intro hst
    rw [hframe.dataOffset hst]
    exact ⟨(h.opened hst).1, Nat.le_trans (h.opened hst).2.1 hlen, (h.opened hst).2.2⟩
  case closed =>
    intro hst
    rw [hframe.dataOffset (by rw [hst]; rintro ⟨⟩), hframe.dataSize hst]
    exact h.closed hst

end Progress

end DexGraph
