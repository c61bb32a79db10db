import DexGraph.Proofs.Assembly.Chart
import DexGraph.Proofs.Assembly.Establishes
import DexGraph.Proofs.Assembly.Linked

/-!
# Steps that follow a survey

A step of assembling follows a survey if it reads what the survey reads in every view that has at
least what has been assembled after the step, and if what it adds on the way is what the pointers
lead to that the survey has met. `Reading.Follows` is kept by all ways of building steps, and
`Build.itemOf_follows` is the rule for sharing: taking the item of an offset, whether it was there
before or has to be read first, follows the survey that looks the offset up. A step only changes
sections whose number is below a bound. The items of a section refer to items of sections with
smaller numbers only, so that an offset that is being read cannot come to be known in between. No
table changes either, so that the errors of a step are honest about the graph in which it started.
Where a chart admits the survey the step succeeds, and stays on the chart.
-/

namespace DexGraph

/-- A pointer leads to those that the image shows in the item to which it points. -/
def View.Leads (v : View) (data : Bytes) (t t' : Pointer) : Prop :=
  (v.find? t.target t.offset).isSome ∧
    ∃ x met q, t.target.survey.Reads v data t.offset.toNat x met q ∧ t' ∈ met

/-- How an assembly changes when the given pointers are met: it stays valid, keeps what it has,
changes only sections with a number below the bound, and adds only what the pointers lead to. -/
structure Assembly.Step (source : Source) (bound : Nat) (a a' : Assembly) (met : List Pointer) :
    Prop where
  valid : a'.Valid source
  within : (a.view source.data).Within (a'.view source.data)
  entities : ∀ s : Section, bound ≤ s.index.val ∨ s.rowSize? ≠ none →
    a'.graph.entities s = a.graph.entities s
  known : ∀ s : Section, bound ≤ s.index.val → a'.known.get s = a.known.get s
  registered : a.graph.Registered → a'.graph.Registered
  beside : a.Beside a'
  answered : ∀ t ∈ met, t.Answered (a'.view source.data)
  reached : ∀ s o, ((a'.view source.data).find? s o).isSome →
    ((a.view source.data).find? s o).isSome ∨
      ∀ v, (a'.view source.data).Within v → ∃ t ∈ met,
        Relation.ReflTransGen (v.Leads source.data) t ⟨s, o⟩

namespace Assembly.Step

variable {source : Source} {bound : Nat} {a a' a'' : Assembly} {met met' : List Pointer}

theorem refl (h : a.Valid source) (hmet : ∀ t ∈ met, t.Answered (a.view source.data)) :
    Step source bound a a met where
  valid := h
  within := .refl _
  entities _ _ := rfl
  known _ _ := rfl
  registered h := h
  beside := .refl _
  answered := hmet
  reached _ _ h := .inl h

theorem trans (h : Step source bound a a' met) (h' : Step source bound a' a'' met') :
    Step source bound a a'' (met ++ met') where
  valid := h'.valid
  within := h.within.trans h'.within
  entities s hs := (h'.entities s hs).trans (h.entities s hs)
  known s hs := (h'.known s hs).trans (h.known s hs)
  registered hl := h'.registered (h.registered hl)
  beside := h.beside.trans h'.beside
  answered t ht := by
    rcases List.mem_append.mp ht with ht | ht
    · exact (h.answered t ht).mono h'.within
    · exact h'.answered t ht
  reached s o ho := by
    rcases h'.reached s o ho with ho | hlead
    · refine (h.reached s o ho).imp_right fun hlead v hv => ?_
      obtain ⟨t, ht, hpath⟩ := hlead v (h'.within.trans hv)
      exact ⟨t, List.mem_append_left _ ht, hpath⟩
    · refine .inr fun v hv => ?_
      obtain ⟨t, ht, hpath⟩ := hlead v hv
      exact ⟨t, List.mem_append_right _ ht, hpath⟩

theorem mono {bound' : Nat} (h : Step source bound a a' met) (hb : bound ≤ bound') :
    Step source bound' a a' met where
  valid := h.valid
  within := h.within
  entities s hs := h.entities s (hs.imp_left hb.trans)
  known s hs := h.known s (hb.trans hs)
  registered := h.registered
  beside := h.beside
  answered := h.answered
  reached := h.reached

theorem count (h : Step source bound a a' met) {s : Section} (hs : s.rowSize? ≠ none) :
    a'.graph.count s = a.graph.count s := by
  unfold Graph.count
  rw [h.entities s (.inr hs)]

/-- An error that is honest after the step was honest before it. -/
theorem honest (h : Step source bound a a' met) {e : Error} (he : e.Honest a'.graph) :
    e.Honest a.graph :=
  he.congr fun _ hs => (h.count hs).symm

end Assembly.Step

/-- The step reads what the survey reads, and does so wherever a chart admits the survey. -/
def Reading.Follows {α : Type} (source : Source) (bound : Nat) (m : Reading α) (d : Survey α) :
    Prop :=
  ∀ p a, a.Valid source → Build.Establishes source
    (fun e => e.Honest a.graph ∧ ∀ chart : Chart, ¬ chart.Admits source.data bound d p a) (m.run p)
    (fun out a' => ∃ met, Assembly.Step source bound a a' met ∧
      (∀ v, (a'.view source.data).Within v → d.Reads v source.data p out.1 met out.2) ∧
      ∀ chart : Chart, chart.Admits source.data bound d p a → a'.On source.data chart) a

/-- The step gives what the survey gives, which reads nothing. -/
def Build.Follows {α : Type} (source : Source) (bound : Nat) (b : Build α) (d : Survey α) : Prop :=
  (liftM b : Reading α).Follows source bound d

section Rules

variable {α β : Type} {source : Source} {bound : Nat}

namespace Reading

theorem Follows.mono {bound' : Nat} {m : Reading α} {d : Survey α} (h : m.Follows source bound d)
    (hb : bound ≤ bound') : m.Follows source bound' d := by
  have himp {chart : Chart} {p : Nat} {a : Assembly}
      (h : chart.Admits source.data bound' d p a) : chart.Admits source.data bound d p a :=
    h.imp hb fun _ x met q _ _ hreads => ⟨x, met, q, hreads⟩
  intro p a ha
  refine ((h p a ha).mono_error fun e he => ⟨he.1, fun chart hc => he.2 chart (himp hc)⟩).mono
    fun out a' hout => ?_
  obtain ⟨met, hstep, hreads, hon⟩ := hout
  exact ⟨met, hstep.mono hb, hreads, fun chart hc => hon chart (himp hc)⟩

theorem follows_pure {x : α} : (pure x : Reading α).Follows source bound (pure x) := by
  intro p a ha
  rw [Build.establishes_run_pure]
  exact ⟨[], .refl ha (by simp), fun v _ => Survey.reads_pure_iff.mpr ⟨rfl, rfl, rfl⟩,
    fun _ hc => hc.on⟩

theorem Follows.bind {m : Reading α} {f : α → Reading β} {d : Survey α} {e : α → Survey β}
    (hm : m.Follows source bound d) (hf : ∀ x, (f x).Follows source bound (e x)) :
    (m >>= f).Follows source bound (d >>= e) := by
  intro p a ha
  rw [Build.establishes_run_bind]
  refine ((hm p a ha).mono_error fun e he => ⟨he.1, fun chart hc => he.2 chart hc.first⟩).mono
    fun out a' hout => ?_
  obtain ⟨met, hstep, hreads, hon⟩ := hout
  have hnext (chart : Chart) (hc : chart.Admits source.data bound (d >>= e) p a) :
      chart.Admits source.data bound (e out.1) out.2 a' :=
    hc.second (hon chart hc.first) hstep.within hreads
  refine ((hf out.1 out.2 a' hstep.valid).mono_error fun e he =>
    ⟨hstep.honest he.1, fun chart hc => he.2 chart (hnext chart hc)⟩).mono fun out' a'' hout' => ?_
  obtain ⟨met', hstep', hreads', hon'⟩ := hout'
  exact ⟨met ++ met', hstep.trans hstep', fun v hv =>
    (hreads v (hstep'.within.trans hv)).bind (hreads' v hv), fun chart hc =>
      hon' chart (hnext chart hc)⟩

theorem follows_decodeWith {d : Graph → Decoder α} (hd : Decoder.Steady d) :
    (decodeWith d).Follows source bound (Survey.decodeWith d) := by
  intro p a ha
  rw [Build.establishes_run_decodeWith]
  refine ⟨fun x q hx => ⟨[], .refl ha (by simp), fun v hv => ?_, fun _ hc => hc.on⟩,
    fun e he => ⟨hd.error he, fun chart hc => ?_⟩⟩
  · exact Survey.reads_decodeWith_iff.mpr ⟨hd.reads hv.narrower hx, rfl⟩
  · obtain ⟨x, q, hx⟩ := hc.exists_reads
    cases hx.symm.trans he

theorem follows_decode {d : Decoder α} (hd : Decoder.Steady fun _ => d) :
    (decode d).Follows source bound (Survey.decode d) :=
  follows_decodeWith hd

theorem follows_refuse {defect : Defect} {e : Error} :
    (liftM (Build.refuse defect : Build α) : Reading α).Follows source bound
      (Survey.decode (Decoder.fail e)) := by
  intro p a ha
  rw [Build.establishes_run_lift, Build.establishes_refuse]
  refine ⟨(Error.plain_malformed _).honest _, fun chart hc => ?_⟩
  obtain ⟨x, q, hx⟩ := Chart.Admits.exists_reads (d := fun _ => Decoder.fail e) hc
  exact Decoder.not_reads_fail hx

theorem Follows.ite {c : Prop} [Decidable c] {m m' : Reading α} {d d' : Survey α}
    (h : c → m.Follows source bound d) (h' : ¬ c → m'.Follows source bound d') :
    (if c then m else m').Follows source bound (if c then d else d') := by
  by_cases hc : c
  · rw [if_pos hc, if_pos hc]
    exact h hc
  · rw [if_neg hc, if_neg hc]
    exact h' hc

theorem follows_gatherFrom {m : Reading α} {d : Survey α} (h : m.Follows source bound d) (n : Nat)
    (done : Array α) : (gatherFrom done n m).Follows source bound (gatherFrom done n d) := by
  induction n generalizing done with
  | zero => exact follows_pure
  | succ n ih => exact h.bind fun x => ih (done.push x)

theorem Follows.gather {m : Reading α} {d : Survey α} (h : m.Follows source bound d) {n : Nat} :
    (DexGraph.gather n m).Follows source bound (DexGraph.gather n d) :=
  follows_gatherFrom h n #[]

end Reading

namespace Build

theorem follows_pure {x : α} : (pure x : Build α).Follows source bound (pure x) :=
  Reading.follows_pure

theorem Follows.bind {b : Build α} {f : α → Build β} {d : Survey α} {e : α → Survey β}
    (hb : b.Follows source bound d) (hf : ∀ x, (f x).Follows source bound (e x)) :
    (b >>= f).Follows source bound (d >>= e) := by
  unfold Follows
  rw [liftM_bind]
  exact Reading.Follows.bind hb hf

theorem follows_refuse {defect : Defect} {e : Error} :
    (refuse defect : Build α).Follows source bound (Survey.decode (Decoder.fail e)) :=
  Reading.follows_refuse

theorem Follows.ite {c : Prop} [Decidable c] {b b' : Build α} {d d' : Survey α}
    (h : c → b.Follows source bound d) (h' : ¬ c → b'.Follows source bound d') :
    (if c then b else b').Follows source bound (if c then d else d') := by
  by_cases hc : c
  · rw [if_pos hc, if_pos hc]
    exact h hc
  · rw [if_neg hc, if_neg hc]
    exact h' hc

theorem ofExcept_follows {x : Except Error α} (hx : ∀ e, x = .error e → e.Plain) :
    (ofExcept x).Follows source bound (Survey.decode (Decoder.ofExcept x)) := by
  intro p a ha
  rw [establishes_run_lift, establishes_ofExcept]
  refine ⟨fun b hb => ⟨[], .refl ha (by simp), fun v _ => Survey.reads_decode_iff.mpr
    ⟨Decoder.reads_ofExcept_iff.mpr ⟨hb, rfl⟩, rfl⟩, fun _ hc => hc.on⟩,
    fun e he => ⟨(hx e he).honest _, fun chart hc => ?_⟩⟩
  obtain ⟨b, q, hb⟩ := Chart.Admits.exists_reads (d := fun _ => Decoder.ofExcept x) hc
  cases (Decoder.reads_ofExcept_iff.mp hb).1.symm.trans he

/-- A step that looks something up in the graph. -/
private theorem follows_lookup {f : Graph → Except Error α}
    (hf : Decoder.Steady fun g => Decoder.ofExcept (f g)) :
    (do ofExcept (f (← get).graph) : Build α).Follows source bound
      (Survey.decodeWith fun g => Decoder.ofExcept (f g)) := by
  intro p a ha
  rw [establishes_run_lift, establishes_bind, establishes_get, establishes_ofExcept]
  constructor
  · intro x hx
    refine ⟨[], .refl ha (by simp), fun v hv => Survey.reads_decodeWith_iff.mpr ⟨?_, rfl⟩,
      fun _ hc => hc.on⟩
    exact hf.reads hv.narrower (Decoder.reads_ofExcept_iff.mpr ⟨hx, rfl⟩)
  · intro e he
    have hrun : (Decoder.ofExcept (f a.graph)).runAt #[] 0 = .error e :=
      Decoder.runAt_ofExcept_eq_error_iff.mpr he
    refine ⟨hf.error hrun, fun chart hc => ?_⟩
    obtain ⟨x, q, hx⟩ := hc.exists_reads
    cases (Decoder.reads_ofExcept_iff.mp hx).1.symm.trans he

theorem resolve_follows {s : Section} {index : UInt32} :
    (resolve s index).Follows source bound (Survey.resolve s index) :=
  follows_lookup Decoder.steady_resolve

theorem resolveOrNone_follows {s : Section} {index : UInt32} :
    (resolveOrNone s index).Follows source bound (Survey.resolveOrNone s index) :=
  follows_lookup Decoder.steady_resolveOrNone

end Build

end Rules

/-! ## Sharing -/

section Sharing

variable {source : Source} {bound : Nat} {s : Section} {a a₁ a' : Assembly} {r : Ref s}
  {x : s.Content} {o : UInt32} {met : List Pointer}

theorem Section.bare_of_ne (hs : s ≠ .classData) (x : s.Content) : s.bare x = x := by
  cases s <;> first | rfl | exact absurd rfl hs

/-- Where an item that was not known has been read and added, the step is one that has met the
pointer to it. -/
theorem Assembly.Step.enter (hstep : Step source s.index a a₁ met) (hs : s.rowSize? = none)
    (hbound : s.index < bound) (hnew : (a.view source.data).find? s o = none)
    (hvalid : a'.Valid source) (hwithin : (a₁.view source.data).Within (a'.view source.data))
    (hentities : ∀ t, t ≠ s → a'.graph.entities t = a₁.graph.entities t)
    (hknown : ∀ t, t ≠ s → a'.known.get t = a₁.known.get t)
    (hregistered : a₁.graph.Registered → a'.graph.Registered) (hbeside : a₁.Beside a')
    (hfind : ∀ o', (a'.view source.data).find? s o' =
      if o' = o then some r else (a₁.view source.data).find? s o')
    {q : Nat} (hreads : ∀ v, (a₁.view source.data).Within v →
      s.survey.Reads v source.data o.toNat x met q) :
    Step source bound a a' [⟨s, o⟩] := by
  have hne {t : Section} (ht : bound ≤ t.index.val ∨ t.rowSize? ≠ none) : t ≠ s := by
    rintro rfl
    rcases ht with ht | ht
    · omega
    · exact ht hs
  have hself : (a'.view source.data).find? s o = some r := (hfind o).trans (if_pos rfl)
  refine ⟨hvalid, hstep.within.trans hwithin, fun t ht => ?_, fun t ht => ?_,
    fun hl => hregistered (hstep.registered hl), hstep.beside.trans hbeside, ?_, fun t o' hfound => ?_⟩
  · rw [hentities t (hne ht), hstep.entities t (ht.imp_left fun h => by omega)]
  · rw [hknown t (hne (.inl ht)), hstep.known t (by omega)]
  · simp only [List.mem_singleton, forall_eq, Pointer.Answered]
    exact .inl (Option.isSome_iff_exists.mpr ⟨r, hself⟩)
  · -- what was found while the item was read hangs on a pointer inside it
    have hinside (hfound : ((a₁.view source.data).find? t o').isSome) :
        ((a.view source.data).find? t o').isSome ∨
          ∀ v, (a'.view source.data).Within v → ∃ t₀ ∈ [(⟨s, o⟩ : Pointer)],
            Relation.ReflTransGen (v.Leads source.data) t₀ ⟨t, o'⟩ := by
      refine (hstep.reached t o' hfound).imp_right fun hlead v hv => ?_
      obtain ⟨t₀, ht₀, hpath⟩ := hlead v (hwithin.trans hv)
      refine ⟨⟨s, o⟩, List.mem_singleton_self _, .head ⟨?_, ?_⟩ hpath⟩
      · exact Option.isSome_iff_exists.mpr ⟨r, hv.find hself⟩
      · exact ⟨x, met, q, hreads v (hwithin.trans hv), ht₀⟩
    by_cases ht : t = s
    · subst ht
      by_cases ho : o' = o
      · subst ho
        exact .inr fun v _ => ⟨_, List.mem_singleton_self _, .refl⟩
      · rw [hfind, if_neg ho] at hfound
        exact hinside hfound
    · refine hinside ?_
      simpa only [Assembly.view, hknown t ht] using hfound

/-- An assembly stays on a chart when an item of the chart is added. -/
theorem Assembly.On.enter {data : Bytes} {chart : Chart} (h : a₁.On data chart)
    (hs : s.rowSize? = none) (hholds : chart.holds s o)
    (hentities : ∀ t, t ≠ s → a'.graph.entities t = a₁.graph.entities t)
    (hknown : ∀ t, t ≠ s → a'.known.get t = a₁.known.get t)
    (hfind : ∀ o', (a'.view data).find? s o' =
      if o' = o then some r else (a₁.view data).find? s o') : a'.On data chart where
  rows t ht := by
    have hts : t ≠ s := by
      rintro rfl
      exact ht hs
    unfold Graph.count
    rw [hentities t hts]
    exact h.rows t ht
  find {t o'} hfound := by
    by_cases ht : t = s
    · subst ht
      rw [hfind] at hfound
      split at hfound
      · rename_i heq
        exact heq ▸ hholds
      · exact h.find hfound
    · refine h.find ?_
      simpa only [view, hknown t ht] using hfound

/-- An item that was found before is taken as it is. -/
theorem Assembly.Step.found (h : a.Valid source)
    (hfound : (a.view source.data).find? s o = some r) : Step source bound a a [⟨s, o⟩] :=
  .refl h fun t ht => by
    rw [List.mem_singleton.mp ht]
    exact .inl (Option.isSome_iff_exists.mpr ⟨r, hfound⟩)

namespace Build

theorem plain_of_toWord {n : Nat} {e : Error} (h : toWord n = .error e) : e.Plain := by
  unfold toWord at h
  split at h <;> cases h
  exact Error.plain_malformed _

theorem lt_of_toWord_eq_error {n : Nat} {e : Error} (h : toWord n = .error e) : 2 ^ 32 ≤ n := by
  unfold toWord at h
  split at h
  · cases h
  · rename_i hn
    exact Nat.le_of_not_lt hn

/-- Adding an item under the key of an offset that is not known cannot fail because the item is
there. -/
theorem establishes_enter {E : Error → Prop} {stop : Nat}
    (hE : ∀ e : Error, e.Plain → 2 ^ 32 ≤ stop → E e)
    {Q : Ref s → Assembly → Prop} (hnew : (a.view source.data).find? s o = none)
    (hQ : ∀ r a', a.Grown a' s x r → (∀ o', (a'.view source.data).find? s o' =
      if o' = o then some r else (a.view source.data).find? s o') →
      (∀ key, key ≠ .ofItem source.data s o →
        ((a'.known.get s).get? key : Option (Ref s)) = (a.known.get s).get? key) →
      a'.layout.Locates source.options.keepOffsets r o stop → Q r a') :
    Establishes source E (enter s (.ofItem source.data s o) stop x) Q a := by
  unfold enter
  rw [establishes_bind, establishes_ofExcept]
  refine ⟨fun size hstop => ?_, fun e he => hE e (plain_of_toWord he) <|
    (lt_of_toWord_eq_error he).trans (Nat.sub_le _ _)⟩
  obtain ⟨r, a', henter, hgrown, hfind, hkeys, hlocates⟩ :=
    Assembly.exists_enter source.options.keepOffsets source.data o size x hnew
  simp only [Establishes, henter]
  refine hQ r a' hgrown hfind hkeys (hlocates stop ?_)
  rw [← toWord_eq_ok_iff.mp hstop, ItemKey.offset_ofItem]

/-- Taking the item of an offset, which is read from `start` on when it is met for the first time,
follows the survey that looks the offset up. -/
theorem itemOf_follows (hs : s.rowSize? = none) (hmembers : s ≠ .classData)
    (hbound : s.index < bound) (hsize : source.data.size < 2 ^ 32) (hzero : o = 0 → s = .stringData)
    {start : Nat} {read : Reading s.Content} {rest : Survey s.Content}
    (hread : read.Follows source s.index rest)
    (hrest : ∀ v x met q, rest.Reads v source.data start x met q ↔
      s.survey.Reads v source.data o.toNat x met q) :
    (itemOf s (.ofItem source.data s o) start read).Follows source bound (Survey.item s o) := by
  intro p a ha
  rw [establishes_run_lift]
  unfold itemOf
  rw [establishes_bind, establishes_known?]
  cases hfound : (a.known.get s).get? (.ofItem source.data s o) with
  | some r =>
    rw [establishes_pure]
    exact ⟨_, .found ha hfound, fun v hv => Survey.reads_item_iff.mpr ⟨hv.find hfound, rfl, rfl⟩,
      fun _ hc => hc.on⟩
  | none =>
    have hinside {chart : Chart} (hc : chart.Admits source.data bound (Survey.item s o) p a) :
        chart.Admits source.data s.index rest start a :=
      (hc.survey hbound).imp (Nat.le_refl _) fun v x met q _ _ hreads =>
        ⟨x, met, q, (hrest v x met q).mpr hreads⟩
    rw [establishes_bind]
    refine ((hread start a ha).mono_error fun e he =>
      ⟨he.1, fun chart hc => he.2 chart (hinside hc)⟩).mono fun out a₁ hout => ?_
    obtain ⟨met, hstep, hreads, hon⟩ := hout
    have hreads (v : View) (hv : (a₁.view source.data).Within v) :
        s.survey.Reads v source.data o.toNat out.1 met out.2 := (hrest v _ _ _).mp (hreads v hv)
    have hnew : (a₁.view source.data).find? s o = none := by
      simpa only [Assembly.view, hstep.known s (Nat.le_refl _)] using hfound
    have hstop (e : Error) (he : e.Plain) (hle : 2 ^ 32 ≤ out.2) : e.Honest a.graph ∧
        ∀ chart : Chart, ¬ chart.Admits source.data bound (Survey.item s o) p a :=
      ⟨he.honest _, fun chart hc =>
        Nat.not_lt.mpr hle (hc.stop_lt hbound (hon chart (hinside hc)) hreads)⟩
    refine establishes_enter hstop hnew fun r a' hgrown hfind hkeys hlocates => ?_
    obtain ⟨hvalid, hwithin⟩ := hstep.valid.enter hs hnew hzero hsize hgrown hfind hkeys
      (by rwa [Section.bare_of_ne hmembers]) hstep.answered hlocates
    refine ⟨_, hstep.enter hs hbound hfound hvalid hwithin hgrown.entities_of_ne
      hgrown.known_of_ne (fun hl => ?_) hgrown.beside hfind hreads,
      fun v hv => Survey.reads_item_iff.mpr ⟨hv.find ((hfind o).trans (if_pos rfl)), rfl, rfl⟩,
      fun chart hc => (hon chart (hinside hc)).enter hs hc.holds hgrown.entities_of_ne
        hgrown.known_of_ne hfind⟩
    exact hl.of_same (Graph.get?_congr (hgrown.entities_of_ne _ (Ne.symm hmembers)))
      (fun d y hy => hgrown.get?_of_get? (hstep.valid.coherent s) hy) hgrown.methodItems

end Build

end Sharing

end DexGraph
