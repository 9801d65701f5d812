import AnnotationIndex.Proofs.Spelled
import AnnotationIndex.Proofs.Storable

/-!
What the checks of a document accept. A check that takes a value gives a record that a document can hold again: line
numbers are held exactly, confidences are confidences, and tables have no key twice. One number is taken as it is, the
confidence of an annotation that needs review, and may have gone beyond all doubles.
-/
namespace AnnotationIndex
open Text

namespace Checked
variable {α β : Type}

theorem map_eq_ok {f : α → β} {x : Checked α} {b : β} : map f x = ok b ↔ ∃ a, x = ok a ∧ f a = b := by
  cases x <;> simp [map]

theorem both_eq_ok {f : Checked (α → β)} {x : Checked α} {b : β} :
    both f x = ok b ↔ ∃ g a, f = ok g ∧ x = ok a ∧ g a = b := by
  cases f <;> cases x <;> simp [both]

theorem under_eq_ok {step : PathStep} {x : Checked α} {a : α} : x.under step = ok a ↔ x = ok a := by
  cases x <;> simp [under]

theorem all_eq_ok {xs : List (Checked α)} {as : List α} : all xs = ok as ↔ xs = as.map ok := by
  induction xs generalizing as with
  | nil => cases as <;> simp [all]
  | cons x rest ih =>
    rw [all, both_eq_ok]
    simp only [map_eq_ok, ih]
    cases as with
    | nil =>
      simp only [List.map_nil, reduceCtorEq, iff_false, not_exists, not_and]
      rintro _ as ⟨a, _, rfl⟩ _
      simp
    | cons a as =>
      constructor
      · rintro ⟨_, _, ⟨b, hb, rfl⟩, hrest, heq⟩
        obtain ⟨rfl, rfl⟩ := List.cons.inj heq
        rw [hb, hrest, List.map_cons]
      · intro h
        obtain ⟨hx, hrest⟩ := List.cons.inj h
        exact ⟨_, as, ⟨a, hx, rfl⟩, hrest, rfl⟩

end Checked

namespace Check
variable {α β : Type} {c : Check α} {P R : α → Prop}

def Accepts (c : Check α) (P : α → Prop) : Prop := ∀ v a, (∀ w ∈ v, w.Spelled) → c v = .ok a → P a

namespace Accepts

theorem any : Accepts c fun _ => True := fun _ _ _ _ => trivial

theorem mono (h : Accepts c P) (hP : ∀ a, P a → R a) : Accepts c R := fun v a hv ha => hP a (h v a hv ha)

/-- A number that passes every test. -/
theorem numberWith {tests : List (Number → Option Text)} :
    Accepts (Check.numberWith tests) fun n => n.Spelled ∧ ∀ test ∈ tests, test n = none := by
  intro v n hv h
  unfold Check.numberWith at h
  split at h
  · next x =>
    have hx : x.Spelled := by
      cases hv _ rfl with
      | num hx => exact hx
    split at h
    · exact absurd h (by simp [Checked.fail])
    · split at h
      · next hnone =>
        obtain rfl := Checked.ok.inj h
        exact ⟨hx, List.filterMap_eq_nil_iff.mp hnone⟩
      · exact absurd h (by simp)
  · exact absurd h (by simp [Checked.fail])

theorem number : Accepts Check.number Number.Spelled := numberWith.mono fun _ h => h.1

/-- A whole number is a double; the tests are those of the integer. -/
theorem intWith {tests : List (Number → Option Text)} :
    Accepts (Check.intWith tests) fun k =>
      Number.Holds k ∧ ∃ n, n.toInt? = some k ∧ ∀ test ∈ tests, test n = none := by
  intro v k hv h
  obtain ⟨n, hn, rfl⟩ := Checked.map_eq_ok.mp h
  obtain ⟨hspelled, htests⟩ := numberWith v n hv hn
  obtain ⟨hwhole, htests⟩ := List.forall_mem_cons.mp htests
  cases hk : n.toInt? with
  | none => simp [isWhole, hk] at hwhole
  | some k =>
    have hdouble : n.Double := hspelled.double (by cases n <;> simp_all [Number.isEndless, Number.toInt?])
    exact ⟨Number.holds_of_toInt? hdouble hk, n, hk, htests⟩

theorem line : Accepts Check.int Number.Holds := intWith.mono fun _ h => h.1

theorem confidence : Accepts unitInterval Number.Confidence := by
  refine numberWith.mono fun n h => ?_
  obtain ⟨hspelled, htests⟩ := h
  simp only [List.forall_mem_cons, List.not_mem_nil, false_implies, implies_true, and_true, atLeast, atMost,
    ite_eq_right_iff, reduceCtorEq, imp_false, Bool.not_eq_true] at htests
  obtain ⟨hlow, hhigh⟩ := htests
  -- An infinite number lies below zero or above one.
  refine ⟨hspelled.double ?_, hlow, hhigh⟩
  cases n with
  | infinite negative =>
    cases negative with
    | false => exact absurd hhigh (by decide)
    | true => exact absurd hlow (by decide)
  | finite m e => rfl
  | undefined => rfl

theorem optional (h : Accepts c P) : Accepts (Check.optional c) fun x => ∀ a ∈ x, P a := by
  intro v x hv hx
  cases v with
  | none =>
    obtain rfl := Checked.ok.inj hx
    exact fun _ ha => absurd ha (by simp)
  | some w =>
    obtain ⟨a, ha, rfl⟩ := Checked.map_eq_ok.mp hx
    exact fun b hb => Option.some.inj hb ▸ h _ a hv ha

theorem nullable (h : Accepts c P) : Accepts (Check.nullable c) fun x => ∀ a ∈ x, P a := by
  intro v x hv hx
  unfold Check.nullable at hx
  split at hx
  · obtain rfl := Checked.ok.inj hx
    exact fun _ ha => absurd ha (by simp)
  · obtain ⟨a, ha, rfl⟩ := Checked.map_eq_ok.mp hx
    exact fun b hb => Option.some.inj hb ▸ h _ a hv ha

theorem list (h : Accepts c P) : Accepts (Check.list c) fun as => ∀ a ∈ as, P a := by
  intro v as hv has
  unfold Check.list at has
  split at has
  · next items =>
    have hitems : ∀ w ∈ items, w.Spelled := by
      cases hv _ rfl with
      | arr hitems => exact hitems
    intro a ha
    have hmem : Checked.ok a ∈ as.map Checked.ok := List.mem_map_of_mem ha
    rw [← Checked.all_eq_ok.mp has] at hmem
    obtain ⟨⟨w, i⟩, hw, hok⟩ := List.mem_map.mp hmem
    exact h (some w) a (fun _ h => Option.some.inj h ▸ hitems w (List.fst_mem_of_mem_zipIdx hw))
      (Checked.under_eq_ok.mp hok)
  · exact absurd has (by simp [Checked.fail])

theorem table (h : Accepts c P) : Accepts (Check.table c) fun t => Table.Keyed t ∧ ∀ e ∈ t, P e.2 := by
  intro v t hv ht
  unfold Check.table at ht
  split at ht
  · next fs =>
    have hfs : Json.SpelledFields fs := by
      cases hv _ rfl with
      | obj hfs => exact hfs
    obtain ⟨es, hes, rfl⟩ := Checked.map_eq_ok.mp ht
    have hmembers : ∀ e ∈ es, P e.2 := by
      intro e he
      have hmem : Checked.ok e ∈ es.map Checked.ok := List.mem_map_of_mem he
      rw [← Checked.all_eq_ok.mp hes] at hmem
      obtain ⟨d, hd, hok⟩ := List.mem_map.mp hmem
      obtain ⟨a, ha, rfl⟩ := Checked.map_eq_ok.mp hok
      exact h (some d.2) a (fun _ h => Option.some.inj h ▸ hfs d hd) (Checked.under_eq_ok.mp ha)
    rw [Table.ofList_filter]
    exact ⟨Table.keyed_gather es, fun e he => hmembers e (Table.mem_of_gather he)⟩
  · exact absurd ht (by simp [Checked.fail])

end Accepts

def Gives (read : List (Text × Json) → Checked α) (Q : α → Prop) : Prop :=
  ∀ fs a, Json.SpelledFields fs → read fs = .ok a → Q a

theorem Accepts.object {read : List (Text × Json) → Checked α} (h : Gives read P) : Accepts (Check.object read) P := by
  intro v a hv ha
  unfold Check.object at ha
  split at ha
  · next fs =>
    cases hv _ rfl with
    | obj hfs => exact h fs a hfs ha
  · exact absurd ha (by simp [Checked.fail])

theorem Accepts.field (h : Accepts c P) {fs : List (Text × Json)} (hfs : Json.SpelledFields fs) {key : String} {a : α}
    (ha : Check.field fs key c = .ok a) : P a := by
  refine h _ a (fun w hw => ?_) (Checked.under_eq_ok.mp ha)
  exact hfs _ (Table.mem_of_get? (Option.mem_def.mp hw))

/- The fields of a record are gone through from the last one, so that the first one meets the whole record: what is
to be shown of it, given what each check accepts. -/
namespace Gives
variable {Q : β → Prop} {f : α → β} {read : List (Text × Json) → Checked (α → β)} {key : String}

theorem first (h : Accepts c P) (hQ : ∀ a, P a → Q (f a)) : Gives (fun fs => f <$> Check.field fs key c) Q := by
  intro fs b hfs hb
  obtain ⟨a, ha, rfl⟩ := Checked.map_eq_ok.mp hb
  exact hQ a (h.field hfs ha)

theorem after (h : Accepts c P) (hread : Gives read fun g => ∀ a, P a → Q (g a)) :
    Gives (fun fs => read fs <*> Check.field fs key c) Q := by
  intro fs b hfs hb
  obtain ⟨g, a, hg, ha, rfl⟩ := Checked.both_eq_ok.mp hb
  exact hread fs g hfs hg a (h.field hfs ha)

/-- A field of which nothing has to be known. -/
theorem past (hread : Gives read fun g => ∀ a, Q (g a)) : Gives (fun fs => read fs <*> Check.field fs key c) Q := by
  intro fs b hfs hb
  obtain ⟨g, a, hg, _, rfl⟩ := Checked.both_eq_ok.mp hb
  exact hread fs g hfs hg a

theorem start (hQ : ∀ a, Q (f a)) : Gives (fun fs => f <$> Check.field fs key c) Q := by
  intro fs b _ hb
  obtain ⟨a, _, rfl⟩ := Checked.map_eq_ok.mp hb
  exact hQ a

end Gives
end Check

section Accepted

def ProvenanceStats.withoutConfidences (s : ProvenanceStats) : ProvenanceStats :=
  { s with lowConfidence := s.lowConfidence.map fun e => { e with confidence := none } }

def ProjectIndex.withoutConfidences (r : ProjectIndex) : ProjectIndex :=
  { r with provenance := r.provenance.withoutConfidences }

structure ProvenanceStats.Accepted (s : ProvenanceStats) : Prop where
  held : s.withoutConfidences.Storable
  spelled : ∀ e ∈ s.lowConfidence, ∀ c ∈ e.confidence, c.Spelled

/-- An index that a document states. The confidences of the annotations that need review are the only numbers that its
schema leaves free. -/
structure ProjectIndex.Accepted (r : ProjectIndex) : Prop where
  held : r.withoutConfidences.Storable
  spelled : ∀ e ∈ r.provenance.lowConfidence, ∀ c ∈ e.confidence, c.Spelled

theorem ProvenanceStats.Accepted.storable {s : ProvenanceStats} (h : s.Accepted)
    (hb : ∀ e ∈ s.lowConfidence, ∀ c ∈ e.confidence, c.isEndless = false) : s.Storable where
  byOrigin := h.held.byOrigin
  needsReview := h.held.needsReview
  reviewed := h.held.reviewed
  lowConfidence e he :=
    { line := (h.held.lowConfidence _ (List.mem_map_of_mem he)).line
      confidence := fun c hc => (h.spelled e he c hc).double (hb e he c hc) }

theorem ProjectIndex.Accepted.storable {r : ProjectIndex} (h : r.Accepted)
    (hb : ∀ e ∈ r.provenance.lowConfidence, ∀ c ∈ e.confidence, c.isEndless = false) : r.Storable :=
  { h.held with provenance := ProvenanceStats.Accepted.storable ⟨h.held.provenance, h.spelled⟩ hb }

end Accepted

namespace Schema
open Check

theorem accepts_lineSpan : Accepts lineSpan LineSpan.Storable :=
  .object (.after .line (.first .line fun _ hstart _ hstop => ⟨hstart, hstop⟩))

theorem accepts_provenance : Accepts provenance fun p => ∀ c ∈ p.confidence, c.Confidence :=
  .object (.past (.past (.past (.past (.past (.after (.optional .confidence) (.start fun _ _ h _ _ _ _ _ => h)))))))

theorem accepts_annotation : Accepts annotation AnnotationRecord.Storable :=
  .object (.past (.past (.after accepts_provenance (.after accepts_lineSpan (.past (.past (.past (.past
    (.start fun _ _ _ _ _ _ hspan _ hconfidence _ _ => ⟨hspan, hconfidence⟩)))))))))

theorem accepts_annotations : Accepts annotations AnnotationMap.Storable :=
  (Accepts.table (.list accepts_annotation)).mono fun _ h => ⟨h.1, fun a ha => by
    obtain ⟨e, he, ha⟩ := List.mem_flatMap.mp ha
    exact h.2 e he a ha⟩

theorem accepts_constraint : Accepts constraint Constraint.Storable :=
  .object (.after (.list accepts_annotation) (.past (.start fun _ _ _ h => h)))

theorem accepts_location : Accepts location Location.Storable :=
  .object (.after (.optional .line) (.after (.optional .line) (.start fun _ _ hline _ hend => ⟨hline, hend⟩)))

theorem accepts_diagnostic : Accepts diagnostic fun d => d.location.Storable :=
  .object (.past (.after accepts_location (.past (.past (.start fun _ _ _ _ h _ => h)))))

theorem accepts_symbol : Accepts symbol SymbolRecord.Storable :=
  .object (.past (.past (.after accepts_annotations (.after (.nullable accepts_constraint) (.past (.past (.past (.past
    (.after accepts_lineSpan (.past (.past (.past (.start
      fun _ _ _ _ _ hspan _ _ _ _ _ hconstraint _ hannotations _ _ => ⟨hspan, hconstraint, hannotations⟩)))))))))))))

theorem accepts_marker : Accepts marker fun m => Number.Holds m.line :=
  .object (.past (.past (.past (.after .line (.start fun _ _ h _ _ _ => h)))))

theorem accepts_importEntry : Accepts importEntry fun e => Number.Holds e.line :=
  .object (.past (.past (.past (.past (.after .line (.start fun _ _ h _ _ _ _ => h))))))

theorem accepts_call : Accepts call fun c => Number.Holds c.line :=
  .object (.past (.after .line (.start fun _ _ h _ => h)))

theorem accepts_lineCount : Accepts (intWith [atLeast Number.zero]) fun n => Number.Holds n ∧ 0 ≤ n := by
  refine Accepts.intWith.mono fun k h => ⟨h.1, ?_⟩
  obtain ⟨_, n, hn, htests⟩ := h
  have hlow := htests _ List.mem_cons_self
  simp only [atLeast, ite_eq_right_iff, reduceCtorEq, imp_false, Bool.not_eq_true] at hlow
  exact Number.nonneg_of_toInt? hn hlow

theorem accepts_file : Accepts file FileRecord.Storable :=
  .object (.after (.optional (.list accepts_diagnostic)) (.after (.list accepts_call) (.past
    (.after (.list accepts_importEntry) (.past (.after (.list accepts_marker) (.past (.after accepts_annotations
      (.after accepts_constraint (.past (.past (.past (.past (.past (.past (.after accepts_lineCount (.past (.start
        fun _ _ _ hlines _ _ _ _ _ _ _ hconstraint _ hannotations _ _ hinline _ _ himports _ _ hcalls _ hdiagnostics =>
          ⟨hlines.1, hlines.2, hconstraint, hannotations, hinline, himports, hcalls, hdiagnostics⟩))))))))))))))))))

theorem accepts_originCounts : Accepts originCounts fun c => ∀ o, Number.Holds (c.count o) :=
  .object (.after .line (.after .line (.after .line (.after .line (.first .line
    fun _ hexplicit _ hconverted _ hheuristic _ hrefined _ hinferred o => by
      cases o with
      | explicit => exact hexplicit
      | converted => exact hconverted
      | heuristic => exact hheuristic
      | refined => exact hrefined
      | inferred => exact hinferred)))))

theorem accepts_lowConfidence :
    Accepts lowConfidence fun e => Number.Holds e.line ∧ ∀ c ∈ e.confidence, c.Spelled :=
  .object (.after (.optional .number) (.past (.past (.after .line (.start
    fun _ _ hline _ _ _ hconfidence => ⟨hline, hconfidence⟩)))))

theorem accepts_provenanceStats : Accepts provenanceStats ProvenanceStats.Accepted :=
  .object (.after (.list accepts_lowConfidence) (.after .line (.after .line (.first accepts_originCounts
    fun _ hcounts _ hreview _ hreviewed rows hrows =>
      ⟨⟨hcounts, hreview, hreviewed, List.forall_mem_map.mpr fun e he => ⟨(hrows e he).1, by simp⟩⟩,
        fun e he => (hrows e he).2⟩))))

theorem accepts_projectIndex : Accepts projectIndex ProjectIndex.Accepted :=
  .object (.after (.table .any) (.after accepts_provenanceStats (.past (.after (.table .any)
    (.after (.table accepts_symbol) (.after (.table accepts_file)
    (.start fun _ _ hfiles _ hsymbols _ hdomains _ _ hprovenance _ hhashes =>
      ⟨⟨hfiles.1, hsymbols.1, hdomains.1, hhashes.1, hfiles.2, hsymbols.2, hprovenance.held⟩,
        hprovenance.spelled⟩)))))))

end Schema
end AnnotationIndex
