import DexGraph.Proofs.Writing.Frame

/-!
# Bodies side by side

A body that is written under a layout that is kept goes where the layout has it. `StoredBody` is
what is stored for one, `Graph.Stores g l r b` that `b` is stored for the body `r`, and
`Graph.BodiesApart g l` that no two bodies lie one over the other. The loop over the bodies succeeds
if and only if each of them can be stored (`Writer.establishes_writeBodies`,
`Writer.stores_of_writeBodies`), and bodies side by side can be put down in any order
(`alike_foldl_lay`).
-/

namespace DexGraph

/-! ## Ranges -/

/-- The range of an image in which a body lies under a layout. -/
def Graph.LiesIn (g : Graph) (l : Layout) (r : Ref .codeItem) (start stop : Nat) : Prop :=
  ∃ code o item, g.get? r = some code ∧ (l.place r).offset = some o ∧ code.encode 0 = .ok item ∧
    start = o.toNat ∧ stop = start + item.length

/-- No two bodies lie one over the other. -/
def Graph.BodiesApart (g : Graph) (l : Layout) : Prop :=
  ∀ r r' a b a' b', r ≠ r' → g.LiesIn l r a b → g.LiesIn l r' a' b' → b ≤ a' ∨ b' ≤ a

theorem Graph.BodiesApart.congr {g : Graph} {l l' : Layout} (hl : l.SameOffsets l')
    (h : g.BodiesApart l) : g.BodiesApart l' := by
  have hback (r : Ref .codeItem) (a b : Nat) (hr : g.LiesIn l' r a b) : g.LiesIn l r a b := by
    obtain ⟨code, o, item, hcode, ho, hitem, hrange⟩ := hr
    exact ⟨code, o, item, hcode, (hl.place _ r).symm.trans ho, hitem, hrange⟩
  exact fun r r' a b a' b' hne hr hr' => h r r' a b a' b' hne (hback r a b hr) (hback r' a' b' hr')

/-- What is stored for a body, where, and the size that is recorded for it. -/
structure StoredBody where
  offset : UInt32
  item : Stream
  size : UInt32

namespace StoredBody

/-- Puts the body where it is to be stored. -/
def lay (b : StoredBody) (s : Stream) : Stream :=
  s.seek b.offset.toNat ++ b.item

/-- The byte that the body puts at a position of the output. -/
def byteAt? (b : StoredBody) (i : Nat) : Option UInt8 :=
  if b.offset.toNat ≤ i then b.item.byteAt? (i - b.offset.toNat) else none

/-- The end of the body. -/
def stop (b : StoredBody) : Nat :=
  b.offset.toNat + b.item.length

theorem byteAt?_lay (b : StoredBody) (s : Stream) (i : Nat) :
    (b.lay s).byteAt? i = (b.byteAt? i).or (s.byteAt? i) := by
  rw [lay, Stream.byteAt?_append, Stream.position_seek, Stream.byteAt?_seek, byteAt?]

theorem length_lay (b : StoredBody) (s : Stream) : (b.lay s).length = max s.length b.stop := by
  rw [lay, Stream.length_append, Stream.length_seek, Stream.position_seek, stop]

/-- A body puts nothing outside its range. -/
theorem byteAt?_eq_none {b : StoredBody} (hb : b.item.Tight) {i : Nat}
    (hi : i < b.offset.toNat ∨ b.stop ≤ i) : b.byteAt? i = none := by
  unfold byteAt?
  split
  · refine Option.eq_none_iff_forall_not_mem.mpr fun v hv => ?_
    have := hb.lt_length _ v hv
    rw [stop] at hi
    omega
  · rfl

/-- Of two bodies side by side at most one puts a byte at a position. -/
theorem or_byteAt?_comm {b b' : StoredBody} (hb : b.item.Tight) (hb' : b'.item.Tight)
    (h : b.stop ≤ b'.offset.toNat ∨ b'.stop ≤ b.offset.toNat) (i : Nat) :
    (b.byteAt? i).or (b'.byteAt? i) = (b'.byteAt? i).or (b.byteAt? i) := by
  by_cases hi : i < b.offset.toNat ∨ b.stop ≤ i
  · rw [byteAt?_eq_none hb hi, Option.none_or, Option.or_none]
  · rw [byteAt?_eq_none hb' (by omega), Option.none_or, Option.or_none]

end StoredBody

/-- Bodies that lie side by side can be put down in any order. -/
theorem alike_foldl_lay {α : Type} {b : α → StoredBody} {xs ys : List α} (hperm : xs.Perm ys)
    (htight : ∀ x ∈ xs, (b x).item.Tight)
    (hapart : ∀ x ∈ xs, ∀ y ∈ xs, x ≠ y →
      (b x).stop ≤ (b y).offset.toNat ∨ (b y).stop ≤ (b x).offset.toNat)
    {s s' : Stream} (h : ∀ n, (s.seek n).Alike (s'.seek n)) (n : Nat) :
    ((xs.foldl (fun s x => (b x).lay s) s).seek n).Alike
      ((ys.foldl (fun s x => (b x).lay s) s').seek n) where
  position := rfl
  length := by
    have hfold (xs : List α) (s : Stream) : (xs.foldl (fun s x => (b x).lay s) s).length =
        xs.foldl (fun n x => max n (b x).stop) s.length := by
      induction xs generalizing s with
      | nil => rfl
      | cons x xs ih => rw [List.foldl_cons, List.foldl_cons, ih, StoredBody.length_lay]
    have hlength : s.length = s'.length := (h 0).length
    rw [Stream.length_seek, Stream.length_seek, hfold, hfold, ← hlength]
    exact hperm.foldl_eq' (fun x _ y _ m => max_right_comm m (b x).stop (b y).stop) _
  byteAt? i := by
    have hfold (xs : List α) (s : Stream) : (xs.foldl (fun s x => (b x).lay s) s).byteAt? i =
        xs.foldl (fun v x => ((b x).byteAt? i).or v) (s.byteAt? i) := by
      induction xs generalizing s with
      | nil => rfl
      | cons x xs ih => rw [List.foldl_cons, List.foldl_cons, ih, StoredBody.byteAt?_lay]
    have hbyte : s.byteAt? i = s'.byteAt? i := (h 0).byteAt? i
    rw [Stream.byteAt?_seek, Stream.byteAt?_seek, hfold, hfold, ← hbyte]
    refine hperm.foldl_eq' (fun x hx y hy v => ?_) _
    by_cases hxy : x = y
    · rw [hxy]
    · rw [← Option.or_assoc, ← Option.or_assoc, StoredBody.or_byteAt?_comm (htight y hy)
        (htight x hx) (hapart y hy x hx (Ne.symm hxy))]

/-! ## The loop over the bodies -/

/-- This is what is stored for a body of the graph under a layout. -/
structure Graph.Stores (g : Graph) (l : Layout) (r : Ref .codeItem) (b : StoredBody) : Prop where
  offset : (l.place r).offset = some b.offset
  item : ∃ code debugOffset, g.get? r = some code ∧
    l.offsetOrZero code.debugInfo = .ok debugOffset ∧ code.encode debugOffset = .ok b.item
  size : toWord (b.offset.toNat + b.item.position - b.offset.toNat) = .ok b.size

namespace Graph.Stores

variable {g : Graph} {l l' : Layout} {r : Ref .codeItem} {b : StoredBody}

theorem tight (h : g.Stores l r b) : b.item.Tight := by
  obtain ⟨_, _, -, -, hitem⟩ := h.item
  exact CodeItem.tight_of_encode hitem

theorem liesIn (h : g.Stores l r b) : g.LiesIn l r b.offset.toNat b.stop := by
  obtain ⟨code, debugOffset, hcode, -, hitem⟩ := h.item
  obtain ⟨item, hitem', hlength⟩ := CodeItem.encode_with_offset hitem 0
  exact ⟨code, b.offset, item, hcode, h.offset, hitem', rfl, by rw [StoredBody.stop, hlength]⟩

theorem congr (hl : l.SameOffsets l') (h : g.Stores l r b) : g.Stores l' r b where
  offset := (hl.place _ r).trans h.offset
  item := by
    obtain ⟨code, debugOffset, hcode, hdebug, hitem⟩ := h.item
    refine ⟨code, debugOffset, hcode, ?_, hitem⟩
    rw [← hdebug]
    cases code.debugInfo with
    | none => rfl
    | some d => simp only [Layout.offsetOrZero, Layout.offsetOf, hl.place]
  size := h.size

end Graph.Stores

namespace Writer

variable {job : Job} {l : Layout} {d : Draft}

/-- Storing a body that can be stored. -/
theorem establishes_writeBody_of_stores {E : Error → Prop} {r : Ref .codeItem} {b : StoredBody}
    (hb : job.graph.Stores d.layout r b) (first : UInt32) :
    Establishes job E (writeBody first r) (fun first' d' => first' = min first b.offset ∧
      d' = ⟨b.lay d.stream, d.layout.setSize r b.size⟩) d := by
  obtain ⟨code, debugOffset, hcode, hdebug, hitem⟩ := hb.item
  unfold writeBody
  rw [establishes_bind, establishes_read]
  simp only [hcode, establishes_bind, establishes_get,
    establishes_ofExcept_ok (Layout.offsetOf_eq_ok_iff.mpr hb.offset),
    establishes_ofExcept_ok hdebug, establishes_ofExcept_ok hitem, establishes_changeStream,
    establishes_tell, Stream.position_append, Stream.position_seek,
    establishes_ofExcept_ok hb.size, establishes_changeLayout, establishes_pure]
  exact ⟨trivial, rfl⟩

/-- Bodies that can all be stored are stored, and the loop does not look at the order. -/
theorem establishes_writeBodies {E : Error → Prop} {refs : List (Ref .codeItem)}
    {b : Ref .codeItem → StoredBody} (hb : ∀ r ∈ refs, job.graph.Stores d.layout r (b r))
    (first : UInt32) :
    Establishes job E (refs.foldlM writeBody first) (fun first' d' =>
      first' = refs.foldl (fun n r => min n (b r).offset) first ∧
      d'.stream = refs.foldl (fun s r => (b r).lay s) d.stream ∧
      d'.layout = refs.foldl (fun l r => l.setSize r (b r).size) d.layout) d := by
  refine (establishes_foldlM (I := fun done first' d' =>
    (first' = done.foldl (fun n r => min n (b r).offset) first ∧
      d'.stream = done.foldl (fun s r => (b r).lay s) d.stream ∧
      d'.layout = done.foldl (fun l r => l.setSize r (b r).size) d.layout) ∧
    d.layout.SameOffsets d'.layout) ?_ ⟨⟨rfl, rfl, rfl⟩, .refl _⟩).mono fun _ _ h => h.1
  rintro done r rest first' d' hsplit ⟨⟨hfirst, hstream, hlayout⟩, hsame⟩
  have hr := (hb r (by simp [hsplit])).congr hsame
  refine (establishes_writeBody_of_stores hr first').mono ?_
  rintro _ _ ⟨rfl, rfl⟩
  simp only [List.foldl_append, List.foldl_cons, List.foldl_nil, hfirst, hstream, hlayout,
    and_self, true_and]
  rw [← hlayout]
  exact hsame.setSize r _

/-- Bodies are stored only if each of them can be. -/
theorem stores_of_writeBodies {refs : List (Ref .codeItem)}
    (hrefs : ∀ r ∈ refs, job.graph.Has .codeItem r) (first : UInt32) :
    Establishes job (fun _ => True) (refs.foldlM writeBody first)
      (fun _ _ => ∀ r ∈ refs, ∃ b, job.graph.Stores d.layout r b) d := by
  refine (establishes_foldlM (I := fun done _ d' => d.layout.SameOffsets d'.layout ∧
    ∀ r ∈ done, ∃ b, job.graph.Stores d.layout r b) ?_ ⟨.refl _, by simp⟩).mono fun _ _ h => h.2
  rintro done r rest first' d' hsplit ⟨hsame, hdone⟩
  obtain ⟨code, hcode⟩ := Graph.has_iff_exists.mp (hrefs r (by simp [hsplit]))
  unfold writeBody
  rw [establishes_bind, establishes_read]
  simp only [hcode, establishes_bind, establishes_get, establishes_ofExcept,
    establishes_changeStream, establishes_tell, establishes_changeLayout, establishes_pure,
    Stream.position_append, Stream.position_seek, implies_true, and_true]
  intro o ho debugOffset hdebug item hitem size hsize
  have hstores : job.graph.Stores d'.layout r ⟨o, item, size⟩ :=
    ⟨Layout.offsetOf_eq_ok_iff.mp ho, ⟨code, debugOffset, hcode, hdebug, hitem⟩, hsize⟩
  refine ⟨hsame.setSize r size, fun r' hr' => ?_⟩
  rcases List.mem_append.mp hr' with hr' | hr'
  · exact hdone r' hr'
  · obtain rfl := List.mem_singleton.mp hr'
    exact ⟨_, hstores.congr hsame.symm⟩

end Writer

end DexGraph
