import DexGraph.Codec.TracedValue
import DexGraph.Proofs.Codec.ValueRecovery

/-!
# Values are read with linear work

Nothing but the bytes bounds the nesting of values and the counts of their lists. Reading ends
because every value and every element of an annotation takes a byte at least: `Traced.Ends` says
that a computation ends where a decoder does, on a trail on which the cursor has moved on from
wherever something was read. It is shown of the parts of a value with what is known of the values
inside, and of values by induction on the depth at which the recursion is cut off, which has only to
be more than the number of bytes left. That what is read has no more nodes than bytes is carried
along.

## Main definitions

* `Value.nodes`: the values, the annotations and their elements that a value is made of.
* `Traced.Linear`: what is promised of reading, whether it succeeds or fails.

## Main results

* `Value.reading_linear`: values, arrays and annotations are read with linear work.
-/

namespace DexGraph

/-! ## Nodes -/

namespace Value

mutual

/-- How many values, annotations and elements of annotations a value is made of. -/
def nodes : Value → Nat
  | .array values => 1 + nodesEach values
  -- the value and the annotation that it is
  | .annotated _ elements => 2 + nodesElements elements
  | .byte _ | .short _ | .char _ | .int _ | .long _ | .float _ | .double _ | .methodType _
  | .methodHandle _ | .string _ | .type _ | .field _ | .method _ | .enum _ | .null | .boolean _ => 1

/-- The nodes of the values of a list. -/
def nodesEach : List Value → Nat
  | [] => 0
  | v :: rest => v.nodes + nodesEach rest

/-- The nodes of the elements of an annotation, each of which is one itself. -/
def nodesElements : List (Ref .stringId × Value) → Nat
  | [] => 0
  | (_, v) :: rest => 1 + v.nodes + nodesElements rest

end

theorem nodesEach_eq_sum (values : List Value) : nodesEach values = (values.map nodes).sum := by
  induction values with
  | nil => rfl
  | cons v rest ih => rw [nodesEach, List.map_cons, List.sum_cons, ih]

theorem nodesElements_eq_sum (elements : List (Ref .stringId × Value)) :
    nodesElements elements = (elements.map fun element => 1 + element.2.nodes).sum := by
  induction elements with
  | nil => rfl
  | cons element rest ih => rw [nodesElements, List.map_cons, List.sum_cons, ih]

end Value

/-- How many values, annotations and elements of annotations an annotation is made of. -/
def Annotation.nodes (a : Annotation) : Nat :=
  1 + Value.nodesElements a.elements

/-! ## Trails -/

namespace Trail

variable {t : Trail} {data : Bytes} {p : Nat}

/-- On a trail that has set out at `p` the cursor goes forward, and never past the end. -/
structure Ordered (t : Trail) (data : Bytes) (p : Nat) : Prop where
  le_position : p ≤ t.position
  position_le : t.position ≤ max p data.size
  descending : t.visited.Pairwise (· > ·)
  mem_visited : ∀ x ∈ t.visited, p ≤ x ∧ x ≤ t.position

/-- The cursor has moved on from wherever something was read. -/
structure Ready (t : Trail) (data : Bytes) (p : Nat) : Prop extends t.Ordered data p where
  fresh : ∀ x ∈ t.visited, x < t.position

theorem ready_start (data : Bytes) (p : Nat) : Ready { position := p } data p where
  le_position := Nat.le_refl p
  position_le := Nat.le_max_left ..
  descending := List.Pairwise.nil
  mem_visited _ h := absurd h List.not_mem_nil
  fresh _ h := absurd h List.not_mem_nil

/-- Something is read at the position, and the cursor moves on or stays where it is. -/
theorem Ready.ordered_visit (h : t.Ready data p) {q : Nat} (hle : t.position ≤ q)
    (hq : q ≤ max p data.size) : Ordered ⟨q, t.position :: t.visited⟩ data p where
  le_position := h.le_position.trans hle
  position_le := hq
  descending := List.pairwise_cons.mpr ⟨h.fresh, h.descending⟩
  mem_visited := List.forall_mem_cons.mpr ⟨⟨h.le_position, hle⟩, fun x hx =>
    ⟨(h.mem_visited x hx).1, (h.mem_visited x hx).2.trans hle⟩⟩

theorem Ready.visit (h : t.Ready data p) {q : Nat} (hlt : t.position < q) (hq : q ≤ data.size) :
    Ready ⟨q, t.position :: t.visited⟩ data p where
  toOrdered := h.ordered_visit hlt.le (hq.trans (Nat.le_max_right ..))
  fresh := List.forall_mem_cons.mpr ⟨hlt, fun x hx => (h.fresh x hx).trans hlt⟩

/-- A descending list within bounds is no longer than the bounds are apart. -/
theorem length_le_of_descending {xs : List Nat} (hxs : xs.Pairwise (· > ·)) {stop : Nat}
    (h : ∀ x ∈ xs, p ≤ x ∧ x < stop) : xs.length ≤ stop - p := by
  induction xs generalizing stop with
  | nil => exact Nat.zero_le _
  | cons x xs ih =>
    obtain ⟨hfirst, hrest⟩ := List.pairwise_cons.mp hxs
    obtain ⟨hx, hmem⟩ := List.forall_mem_cons.mp h
    have hlen := ih hrest fun y hy => ⟨(hmem y hy).1, hfirst y hy⟩
    rw [List.length_cons]
    omega

/-- Something is read at most once at each position. -/
theorem Ordered.length_visited (h : t.Ordered data p) :
    t.visited.length ≤ t.position - p + 1 := by
  have hlen := length_le_of_descending h.descending fun x hx =>
    ⟨(h.mem_visited x hx).1, Nat.lt_succ_of_le (h.mem_visited x hx).2⟩
  omega

end Trail

/-- What the decoder reads takes a byte at least and lies inside the bytes. -/
def Decoder.Consumes {α : Type} (d : Decoder α) : Prop :=
  ∀ data p a q, d.Reads data p a q → p < q ∧ q ≤ data.size

namespace Traced

open Trail

variable {α β : Type} {m m' : Traced α} {t : Trail}

theorem run_bind_of_ok {f : α → Traced β} {a : α} {stop : Trail}
    (h : m.run.run t = some (.ok a, stop)) : (m >>= f).run.run t = (f a).run.run stop := by
  rw [ExceptT.run_bind, StateT.run_bind, h]
  rfl

theorem run_bind_of_error {f : α → Traced β} {e : Error} {stop : Trail}
    (h : m.run.run t = some (.error e, stop)) :
    (m >>= f).run.run t = some (.error e, stop) := by
  rw [ExceptT.run_bind, StateT.run_bind, h]
  rfl

theorem run_bind_of_none {f : α → Traced β} (h : m.run.run t = none) :
    (m >>= f).run.run t = none := by
  rw [ExceptT.run_bind, StateT.run_bind, h]
  rfl

/-! ## Cutting off the recursion -/

/-- The second computation comes to whatever the first one comes to. -/
def Approximates (m m' : Traced α) : Prop :=
  ∀ t out, m.run.run t = some out → m'.run.run t = some out

theorem Approximates.refl (m : Traced α) : Approximates m m :=
  fun _ _ h => h

theorem Approximates.bind {f f' : α → Traced β} (h : Approximates m m')
    (hf : ∀ a, Approximates (f a) (f' a)) : Approximates (m >>= f) (m' >>= f') := by
  intro t out hout
  cases hm : m.run.run t with
  | none =>
    rw [run_bind_of_none hm] at hout
    cases hout
  | some first =>
    obtain ⟨outcome, stop⟩ := first
    cases outcome with
    | ok a =>
      rw [run_bind_of_ok hm] at hout
      rw [run_bind_of_ok (h t _ hm)]
      exact hf a stop out hout
    | error e =>
      rw [run_bind_of_error hm] at hout
      rw [run_bind_of_error (h t _ hm), hout]

theorem Approximates.gatherFrom (h : Approximates m m') (count : Nat) (done : Array α) :
    Approximates (gatherFrom done count m) (gatherFrom done count m') := by
  induction count generalizing done with
  | zero => exact .refl _
  | succ count ih => exact h.bind fun a => ih (done.push a)

/-! ## Computations that end -/

/-- From the trail on, the computation ends as the decoder does. After a success the cursor has
moved on, and `Q` holds of what is read and of where the cursor is. -/
inductive Ends (m : Traced α) (d : Decoder α) (data : Bytes) (p : Nat) (t : Trail)
    (Q : α → Nat → Prop) : Prop
  | ok {a : α} {stop : Trail} (run : m.run.run t = some (.ok a, stop))
    (reads : d.Reads data t.position a stop.position) (ready : stop.Ready data p)
    (holds : Q a stop.position)
  | error {e : Error} {stop : Trail} (run : m.run.run t = some (.error e, stop))
    (fails : d.runAt data t.position = .error e) (ordered : stop.Ordered data p)

/-- From `start` on, the computation ends as the decoder does, and takes at least as many bytes as
the size of what is read. -/
def EndsFrom (m : Traced α) (d : Decoder α) (data : Bytes) (p start : Nat) (size : α → Nat) :
    Prop :=
  ∀ t : Trail, t.Ready data p → start ≤ t.position →
    Ends m d data p t fun a q => t.position + size a ≤ q

section Rules

variable {d : Decoder α} {data : Bytes} {p start : Nat} {Q : α → Nat → Prop} {R : β → Nat → Prop}

theorem ends_pure (h : t.Ready data p) {a : α} (hQ : Q a t.position) :
    Ends (pure a) (pure a) data p t Q :=
  .ok rfl (Decoder.reads_pure_iff.mpr ⟨rfl, rfl⟩) h hQ

theorem ends_throw (h : t.Ordered data p) (e : Error) :
    Ends (throw e) (Decoder.fail e) data p t Q :=
  .error rfl rfl h

theorem Ends.bind {f : α → Traced β} {f' : α → Decoder β} (h : Ends m d data p t Q)
    (hf : ∀ a stop, stop.Ready data p → Q a stop.position → Ends (f a) (f' a) data p stop R) :
    Ends (m >>= f) (d >>= f') data p t R := by
  cases h with
  | error run fails ordered =>
    refine .error (run_bind_of_error run) ?_ ordered
    rw [Decoder.runAt_bind, fails]
  | ok run reads ready holds =>
    cases hf _ _ ready holds with
    | ok run' reads' ready' holds' =>
      exact .ok ((run_bind_of_ok run).trans run') (reads.bind reads') ready' holds'
    | error run' fails' ordered' =>
      refine .error ((run_bind_of_ok run).trans run') ?_ ordered'
      rw [Decoder.runAt_bind, reads]
      exact fails'

/-- A computation that only makes something of what another one gives. -/
theorem Ends.map (h : Ends m d data p t Q) (f : α → β) (hf : ∀ a q, Q a q → R (f a) q) :
    Ends (do return f (← m)) (do return f (← d)) data p t R :=
  h.bind fun a _ ready holds => ends_pure ready (hf a _ holds)

theorem Ends.mono {Q' : α → Nat → Prop} (h : Ends m d data p t Q) (hQ : ∀ a q, Q a q → Q' a q) :
    Ends m d data p t Q' := by
  cases h with
  | ok run reads ready holds => exact .ok run reads ready (hQ _ _ holds)
  | error run fails ordered => exact .error run fails ordered

/-- Decoders that do the same at the position are the same to a computation. -/
theorem Ends.congr {d' : Decoder α} (h : Ends m d data p t Q)
    (hd : d'.runAt data t.position = d.runAt data t.position) : Ends m d' data p t Q := by
  cases h with
  | ok run reads ready holds => exact .ok run (hd.trans reads) ready holds
  | error run fails ordered => exact .error run (hd.trans fails) ordered

theorem ends_position (h : t.Ready data p) :
    Ends position Decoder.position data p t fun here q => here = t.position ∧ q = t.position :=
  .ok rfl rfl h ⟨rfl, rfl⟩

theorem ends_ofOutcome (h : t.Ready data p) (outcome : Except Error α) :
    Ends (ofOutcome outcome) (Decoder.ofExcept outcome) data p t fun _ q => q = t.position := by
  cases outcome with
  | ok a => exact .ok rfl rfl h rfl
  | error e => exact .error rfl rfl h.toOrdered

theorem ends_visit (h : t.Ready data p) (hd : d.Consumes) :
    Ends (visit data d) d data p t fun _ q => t.position < q ∧ q ≤ data.size := by
  have hrun : (visit data d).run.run t = some ((d.attempt data t.position).1,
      ⟨(d.attempt data t.position).2, t.position :: t.visited⟩) := rfl
  cases houtcome : d.runAt data t.position with
  | ok out =>
    rw [Decoder.attempt, houtcome] at hrun
    obtain ⟨hlt, hle⟩ := hd data t.position out.1 out.2 houtcome
    exact .ok hrun houtcome (h.visit hlt hle) ⟨hlt, hle⟩
  | error e =>
    rw [Decoder.attempt, houtcome] at hrun
    exact .error hrun houtcome (h.ordered_visit (Nat.le_refl _) h.position_le)

theorem EndsFrom.gatherFrom {size : α → Nat} (hm : EndsFrom m d data p start size)
    (h : t.Ready data p) (hstart : start ≤ t.position) (count : Nat) (done : Array α) :
    Ends (DexGraph.gatherFrom done count m) (DexGraph.gatherFrom done count d) data p t
      fun all q => t.position + (all.toList.map size).sum ≤ q + (done.toList.map size).sum := by
  induction count generalizing t done with
  | zero => exact ends_pure h (Nat.le_refl _)
  | succ count ih =>
    refine (hm t h hstart).bind fun a stop ready ha => ?_
    refine (ih ready (by omega) (done.push a)).mono fun all q hq => ?_
    rw [Array.toList_push, List.map_append, List.sum_append, List.map_singleton,
      List.sum_singleton] at hq
    omega

theorem EndsFrom.gather {size : α → Nat} (hm : EndsFrom m d data p start size)
    (h : t.Ready data p) (hstart : start ≤ t.position) (count : Nat) :
    Ends (DexGraph.gather count m) (DexGraph.gather count d) data p t
      fun all q => t.position + (all.toList.map size).sum ≤ q :=
  hm.gatherFrom h hstart count #[]

end Rules

/-! ## Linear work -/

/-- What is promised of a computation that has set out at `p` and ended on a trail. -/
structure Linear (d : Decoder α) (size : α → Nat) (data : Bytes) (p : Nat)
    (outcome : Except Error α) (t : Trail) : Prop extends t.Ordered data p where
  /-- It comes to what the decoder comes to. -/
  runAt_eq : d.runAt data p = outcome.map (·, t.position)
  /-- The times that something was read are no more than the bytes that were passed over, and one,
  for where reading may have failed. -/
  length_visited : t.visited.length ≤ t.position - p + 1
  /-- What is read is no larger than the bytes are many. -/
  size_le : ∀ a, outcome = .ok a → size a ≤ t.position - p

/-- Reading ends with linear work. It does so in one way, wherever the recursion is cut off, if only
deeper than there are bytes left. -/
def EndsLinearly (m : Nat → Traced α) (d : Decoder α) (size : α → Nat) (data : Bytes) (p : Nat) :
    Prop :=
  ∃ outcome t, (∀ depth, data.size - p < depth → (m depth).runFrom p = some (outcome, t)) ∧
    Linear d size data p outcome t

/-- It is enough to cut the recursion off at the first of these depths. -/
theorem endsLinearly_of_ends {m : Nat → Traced α} {d : Decoder α} {size : α → Nat} {data : Bytes}
    {p : Nat} (hm : ∀ n n', n ≤ n' → Approximates (m n) (m n'))
    (h : Ends (m (data.size - p + 1)) d data p { position := p } fun a q => p + size a ≤ q) :
    EndsLinearly m d size data p := by
  cases h with
  | ok run reads ready holds =>
    refine ⟨_, _, fun depth hdepth => hm _ _ hdepth _ _ run, ready.toOrdered, reads,
      ready.length_visited, ?_⟩
    rintro _ ⟨⟩
    exact Nat.le_sub_of_add_le' holds
  | error run fails ordered =>
    exact ⟨_, _, fun depth hdepth => hm _ _ hdepth _ _ run, ordered, fails,
      ordered.length_visited, nofun⟩

end Traced

/-! ## Parts of values -/

namespace Decoder

theorem consumes_byte : byte.Consumes := by
  intro data p b q h
  obtain ⟨hb, rfl⟩ := reads_byte_iff.mp h
  exact ⟨Nat.lt_succ_self p, (Array.getElem?_eq_some_iff.mp hb).1⟩

theorem consumes_number {width : Nat} (hpos : 0 < width) : (number width).Consumes := by
  intro data p n q h
  obtain ⟨part, -, -, hle, -, rfl⟩ := reads_number_iff.mp h
  exact ⟨Nat.lt_add_of_pos_right hpos, hle⟩

theorem consumes_signedNumber {width : Nat} (hpos : 0 < width) :
    (signedNumber width).Consumes := by
  intro data p v q h
  obtain ⟨n, _, hn, hv⟩ := reads_bind_iff.mp h
  obtain ⟨-, rfl⟩ := reads_pure_iff.mp hv
  exact consumes_number hpos data p n _ hn

theorem consumes_unsignedLeb : unsignedLeb.Consumes := by
  intro data p v q h
  obtain ⟨gs, hterm, -, hat, rfl, -⟩ := reads_unsignedLeb_iff.mp h
  exact ⟨Nat.lt_add_of_pos_right (List.length_pos_of_ne_nil hterm.ne_nil),
    hat.add_length_le hterm.ne_nil⟩

end Decoder

namespace Value

open Traced Trail

variable {g : Graph} {data : Bytes} {p start : Nat} {t : Trail}

theorem ends_readIndex (h : t.Ready data p) (s : Section) :
    Ends (readIndex g data s) (decodeIndex g s) data p t fun _ q => t.position < q :=
  (ends_visit h Decoder.consumes_unsignedLeb).bind fun _ _ ready hlt =>
    (ends_ofOutcome ready _).mono fun _ _ hq => hq ▸ hlt.1

theorem ends_readRef (h : t.Ready data p) (s : Section) {width : Nat} (hpos : 0 < width) :
    Ends (readRef g data s width) (decodeRef g s width) data p t fun _ q => t.position < q :=
  (ends_visit h (Decoder.consumes_number hpos)).bind fun _ _ ready hlt =>
    (ends_ofOutcome ready _).mono fun _ _ hq => hq ▸ hlt.1

section Inside

variable {value : Traced Value} {value' : Decoder Value}

theorem endsFrom_readArrayWith (hvalue : EndsFrom value value' data p start nodes) :
    EndsFrom (readArrayWith data value) (decodeArrayWith value') data p start
      fun values => 1 + nodesEach values := by
  intro t h hstart
  refine (ends_visit h Decoder.consumes_unsignedLeb).bind fun count stop ready hcount => ?_
  refine (hvalue.gather ready (by omega) count.toNat).map _ fun all q hq => ?_
  simp only [nodesEach_eq_sum]
  omega

theorem endsFrom_readElement (hvalue : EndsFrom value value' data p start nodes) :
    EndsFrom (readElement g data value) (decodeElement g value') data p start
      fun element => 1 + element.2.nodes := by
  intro t h hstart
  refine (ends_readIndex h .stringId).bind fun name stop ready hname => ?_
  refine (hvalue stop ready (by omega)).map _ fun v q hv => ?_
  simp only
  omega

theorem endsFrom_readAnnotationWith (hvalue : EndsFrom value value' data p start nodes) :
    EndsFrom (readAnnotationWith g data value) (decodeAnnotationWith g value') data p start
      fun a => 1 + a.nodes := by
  intro t h hstart
  refine (ends_readIndex h .typeId).bind fun owner stop ready howner => ?_
  refine (ends_visit ready Decoder.consumes_unsignedLeb).bind fun count stop' ready' hcount => ?_
  refine ((endsFrom_readElement hvalue).gather ready' (by omega) count.toNat).map _
    fun all q hq => ?_
  simp only [ Annotation.nodes, nodesElements_eq_sum]
  omega

/-- The first byte of a value is a node of it, which the payload need not pay for. -/
theorem endsFrom_readPayload (hvalue : EndsFrom value value' data p start nodes) (argument : UInt8)
    (tag : ValueTag) :
    EndsFrom (readPayload g data value argument tag) (decodePayload g value' argument tag) data p
      start fun v => v.nodes - 1 := by
  intro t h hstart
  have hpos : 0 < argument.toNat + 1 := Nat.succ_pos _
  cases tag with
  | null | boolean => exact ends_pure h (Nat.le_refl _)
  | byte | short | int | long =>
    exact (ends_visit h (Decoder.consumes_signedNumber hpos)).map _ fun _ _ hq => hq.1.le
  | char | float | double =>
    exact (ends_visit h (Decoder.consumes_number hpos)).map _ fun _ _ hq => hq.1.le
  | methodType | methodHandle | string | type | field | method | enum =>
    exact (ends_readRef h _ hpos).map _ fun _ _ hq => hq.le
  | array =>
    refine (endsFrom_readArrayWith hvalue t h hstart).map _ fun values q hq => ?_
    simp only [nodes] at hq ⊢
    omega
  | annotated =>
    refine (endsFrom_readAnnotationWith hvalue t h hstart).map _ fun a q hq => ?_
    simp only [ Annotation.nodes, nodes] at hq ⊢
    omega

end Inside

/-! ## Values -/

/-- The bound is reached only where no byte is left, and there no value is read either. -/
theorem runAt_decodeWithin_zero (h : data.size ≤ p) :
    (decodeWithin g 0).runAt data p =
      (do
        let _ ← Decoder.position
        let _ ← Decoder.byte
        Decoder.fail .outOfBounds : Decoder Value).runAt data p := by
  have hposition : Decoder.position.runAt data p = .ok (p, p) := rfl
  have hbyte : Decoder.byte.runAt data p = .error .outOfBounds := by
    unfold Decoder.runAt Decoder.byte
    rw [Array.getElem?_eq_none h]
  simp only [Decoder.runAt_bind, hposition, hbyte]
  rfl

/-- Values are read as with the nesting bounded by the number of bytes left, if the recursion is cut
off deeper. -/
theorem endsFrom_readValue {depth limit : Nat} (hdepth : data.size - start < depth)
    (hlimit : data.size ≤ start + limit) :
    EndsFrom (readValue g data depth) (decodeWithin g limit) data p start nodes := by
  induction depth generalizing limit start with
  | zero => exact absurd hdepth (Nat.not_lt_zero _)
  | succ depth ih =>
    intro t h hstart
    cases limit with
    | zero =>
      refine Ends.congr ?_ (runAt_decodeWithin_zero (by omega))
      refine (ends_position h).bind fun here stop ready hhere => ?_
      refine (ends_visit ready Decoder.consumes_byte).bind fun first stop' _ hfirst => ?_
      omega
    | succ limit =>
      refine (ends_position h).bind fun here stop ready hhere => ?_
      refine (ends_visit ready Decoder.consumes_byte).bind fun first stop' ready' hfirst => ?_
      -- the byte pays for the depth
      have hvalue := @ih stop'.position limit (by omega) (by omega)
      dsimp only
      cases ValueTag.ofCode? (first &&& 0x1F) with
      | none => exact ends_throw ready'.toOrdered _
      | some tag =>
        by_cases hwidth : tag.maxWidth?.any (· < (first >>> 5).toNat + 1)
        · simp only [if_pos hwidth]
          exact (ends_throw ready'.toOrdered _).congr rfl
        · simp only [if_neg hwidth]
          refine ((endsFrom_readPayload hvalue _ tag stop' ready' le_rfl).mono
            fun v q hq => ?_).congr rfl
          dsimp only at hq
          omega

/-! ### Depth -/

theorem approximates_readArrayWith {value value' : Traced Value} (h : Approximates value value') :
    Approximates (readArrayWith data value) (readArrayWith data value') :=
  (Approximates.refl _).bind fun _ => (h.gatherFrom _ _).bind fun _ => .refl _

theorem approximates_readAnnotationWith {value value' : Traced Value}
    (h : Approximates value value') :
    Approximates (readAnnotationWith g data value) (readAnnotationWith g data value') :=
  (Approximates.refl _).bind fun _ => (Approximates.refl _).bind fun _ =>
    (Approximates.gatherFrom
      ((Approximates.refl _).bind fun _ => h.bind fun _ => .refl _) _ _).bind fun _ => .refl _

theorem approximates_readValue_succ (depth : Nat) :
    Approximates (readValue g data depth) (readValue g data (depth + 1)) := by
  induction depth with
  | zero => exact fun t out h => nomatch h
  | succ depth ih =>
    refine (Approximates.refl _).bind fun start => (Approximates.refl _).bind fun first => ?_
    dsimp only
    cases ValueTag.ofCode? (first &&& 0x1F) with
    | none => exact .refl _
    | some tag =>
      dsimp only
      split
      · exact .refl _
      · cases tag
        case array => exact (approximates_readArrayWith ih).bind fun _ => .refl _
        case annotated => exact (approximates_readAnnotationWith ih).bind fun _ => .refl _
        all_goals exact .refl _

/-- Cut off deeper, the recursion comes to whatever it has come to. -/
theorem approximates_readValue {m n : Nat} (h : m ≤ n) :
    Approximates (readValue g data m) (readValue g data n) := by
  induction n, h using Nat.le_induction with
  | base => exact .refl _
  | succ n _ ih => exact fun t out hout => approximates_readValue_succ n t out (ih t out hout)

/-! ## Main result -/

/-- **Values are read with linear work.** At every position of every byte string, with any tables,
reading a value, an array or an annotation ends, whatever the bytes say about nesting and counts: it
comes to what is read with the nesting bounded by the bytes, the cursor goes forward and not past
the end, nowhere is anything read twice, and what is read has no more nodes than bytes. -/
theorem reading_linear (g : Graph) (data : Bytes) (p : Nat) :
    EndsLinearly (readValue g data) (decode g) nodes data p ∧
    EndsLinearly (readArray g data) (decodeArray g) nodesEach data p ∧
    EndsLinearly ( readAnnotation g data) ( Annotation.decode g) Annotation.nodes data p := by
  have hvalue : EndsFrom (readValue g data (data.size - p + 1)) (decodeWithin g (data.size - p))
      data p p nodes := endsFrom_readValue (Nat.lt_succ_self _) (by omega)
  have hready := ready_start data p
  refine ⟨?_, ?_, ?_⟩
  · refine endsLinearly_of_ends (fun _ _ => approximates_readValue) ?_
    exact (hvalue _ hready le_rfl).congr rfl
  · refine endsLinearly_of_ends
      (fun _ _ h => approximates_readArrayWith (approximates_readValue h)) ?_
    refine ((endsFrom_readArrayWith hvalue _ hready le_rfl).mono fun values q hq => ?_).congr rfl
    dsimp only at hq
    omega
  · refine endsLinearly_of_ends
      (fun _ _ h => approximates_readAnnotationWith (approximates_readValue h)) ?_
    refine ((endsFrom_readAnnotationWith hvalue _ hready le_rfl).mono fun a q hq => ?_).congr rfl
    dsimp only at hq
    omega

end Value

end DexGraph
