import AnnotationIndex.Proofs.Session
import Mathlib.Data.Finset.Prod

/-!
The search for an exported name ends, whatever cycles the imports and exports of a project make. A course of the
search is told without fuel: it looks up what is kept, passes over a name that is on the way, and otherwise follows
the inquiry for it with the name put on the way. The names on the way are those of files of the project under names
that the project mentions, so that there are never more of them than such pairs, and each search finds fewer that
are not on the way.
-/
namespace AnnotationIndex
open Text

namespace Inquiry

/-- Whatever files with these paths the requests turn out to name, the inquiry asks only about these names of them. -/
def Stays (paths names : List Text) : Inquiry → Prop
  | answer _ => True
  | modules _ _ next => ∀ targets, (∀ path ∈ targets, path ∈ paths) → Stays paths names (next targets)
  | name k next => k.path ∈ paths ∧ k.name ∈ names ∧ ∀ l, Stays paths names (next l)

variable {paths names : List Text} {q r : Inquiry}

theorem Stays.andThen {f : Lookup → Inquiry} (hq : q.Stays paths names) (hf : ∀ l, (f l).Stays paths names) :
    (q.andThen f).Stays paths names := by
  induction q with
  | answer l => exact hf l
  | modules r source next ih => exact fun targets ht => ih targets (hq targets ht)
  | name k next ih => exact ⟨hq.1, hq.2.1, fun l => ih l (hq.2.2 l)⟩

theorem Stays.orElse (hq : q.Stays paths names) (hr : r.Stays paths names) : (q.orElse r).Stays paths names := by
  refine hq.andThen fun l => ?_
  split
  · trivial
  · exact hr.andThen fun _ => trivial

theorem stays_first {α : Type} {ask : α → Inquiry} {as : List α} (h : ∀ a ∈ as, (ask a).Stays paths names) :
    (first ask as).Stays paths names := by
  induction as with
  | nil => trivial
  | cons a rest ih => exact (h a List.mem_cons_self).orElse (ih fun b hb => h b (List.mem_cons_of_mem a hb))

theorem stays_imported (path : Text) (request : ModuleRequest) {n : Text} (hn : n ∈ names) :
    (imported path request n).Stays paths names := by
  intro targets ht
  cases targets with
  | nil => trivial
  | cons target rest => exact stays_first fun target' hm => ⟨ht target' hm, hn, fun _ => trivial⟩

end Inquiry

namespace LinkUnit
variable {u : LinkUnit} {paths names : List Text} {row : ExportRow}

theorem stays_row (hn : ∀ n ∈ u.names, n ∈ names) (hrow : row ∈ u.exports) : (u.askRow row).Stays paths names := by
  unfold askRow
  cases row.source with
  | some specifier =>
    dsimp only
    split
    · trivial
    · exact Inquiry.stays_imported _ _ (hn _ (sourceName_mem_names hrow))
  | none =>
    dsimp only
    cases u.symbolNamed (row.binding.getD row.name) with
    | some q => trivial
    | none =>
      cases hb : u.binding? (row.binding.getD row.name) with
      | none => trivial
      | some b => exact Inquiry.stays_imported _ _ (hn _ (binding_mem_names hb))

theorem stays_star {name : Text} (hname : name ∈ names) (row : ExportRow) : (u.askStar name row).Stays paths names := by
  unfold askStar
  cases row.source with
  | none => trivial
  | some specifier =>
    exact fun targets ht => Inquiry.stays_first fun target hm => ⟨ht target hm, hname, fun _ => trivial⟩

theorem stays_name {name : Text} (hn : ∀ n ∈ u.names, n ∈ names) (hname : name ∈ names) :
    (u.askName name).Stays paths names := by
  have own : (Inquiry.first u.askRow (u.exports.filter fun r => r.name == name)).Stays paths names :=
    Inquiry.stays_first fun row hrow => stays_row hn (List.mem_filter.mp hrow).1
  unfold askName
  dsimp only
  split
  · exact own
  · exact own.orElse (Inquiry.stays_first fun row _ => stays_star hname row)

end LinkUnit

inductive SearchTask where
  | name (k : ExportKey)
  | inquiry (q : Inquiry)

namespace LinkSession
variable {t : LinkTables} {s s' : LinkSession} {room : Nat} {visiting names : List Text} {k : ExportKey} {l : Lookup}

/-- A course of the search below the names on the way, from one session to the next, with its answer. There are
never more names on the way than there is room. -/
inductive Course (t : LinkTables) (room : Nat) : List Text → SearchTask → LinkSession → Lookup → LinkSession → Prop
  | kept {visiting : List Text} {k : ExportKey} {s : LinkSession} {value : Option Text}
      (kept : s.symbol? k.text = some value) : Course t room visiting (.name k) s ⟨value, true⟩ s
  | passed {visiting : List Text} {k : ExportKey} {s : LinkSession} (fresh : s.symbol? k.text = none)
      (seen : k.text ∈ visiting) : Course t room visiting (.name k) s ⟨none, false⟩ s
  | followed {visiting : List Text} {k : ExportKey} {s s' : LinkSession} {l : Lookup} (fresh : s.symbol? k.text = none)
      (unseen : k.text ∉ visiting) (fits : (k.text :: visiting).length ≤ room)
      (found : Course t room (k.text :: visiting) (.inquiry (t.inquiry k)) s l s') :
      Course t room visiting (.name k) s l ((keep k l).run s').2
  | answer {visiting : List Text} {l : Lookup} {s : LinkSession} : Course t room visiting (.inquiry (.answer l)) s l s
  | modules {visiting : List Text} {r : ModuleRequest} {source : Text} {next : List Text → Inquiry} {s s' : LinkSession}
      {l : Lookup}
      (rest : Course t room visiting (.inquiry (next ((targets t r source).run s).1))
        ((targets t r source).run s).2 l s') :
      Course t room visiting (.inquiry (.modules r source next)) s l s'
  | asked {visiting : List Text} {k : ExportKey} {next : Lookup → Inquiry} {s s' s'' : LinkSession} {a l : Lookup}
      (found : Course t room visiting (.name k) s a s') (rest : Course t room visiting (.inquiry (next a)) s' l s'') :
      Course t room visiting (.inquiry (.name k next)) s l s''

/-- There is only one course. -/
theorem Course.unique {task : SearchTask} (h : Course t room visiting task s l s') {room' : Nat} {l' : Lookup}
    {s'' : LinkSession} (h' : Course t room' visiting task s l' s'') : l' = l ∧ s'' = s' := by
  induction h generalizing l' s'' with
  | kept kept =>
    cases h' with
    | kept kept' =>
      obtain rfl := Option.some.inj (kept'.symm.trans kept)
      exact ⟨rfl, rfl⟩
    | passed fresh => exact absurd (fresh.symm.trans kept) nofun
    | followed fresh => exact absurd (fresh.symm.trans kept) nofun
  | passed fresh seen =>
    cases h' with
    | kept kept => exact absurd (fresh.symm.trans kept) nofun
    | passed => exact ⟨rfl, rfl⟩
    | followed _ unseen => exact absurd seen unseen
  | followed fresh unseen _ _ ih =>
    cases h' with
    | kept kept => exact absurd (fresh.symm.trans kept) nofun
    | passed _ seen => exact absurd seen unseen
    | followed _ _ _ found =>
      obtain ⟨rfl, rfl⟩ := ih found
      exact ⟨rfl, rfl⟩
  | answer =>
    cases h'
    exact ⟨rfl, rfl⟩
  | modules _ ih =>
    cases h' with
    | modules rest => exact ih rest
  | asked _ _ ihfound ihrest =>
    cases h' with
    | asked found rest =>
      obtain ⟨rfl, rfl⟩ := ihfound found
      exact ihrest rest

section Confined

def Confined (t : LinkTables) (s : LinkSession) : Prop :=
  ∀ key targets, Memo.modules key targets ∈ s → ∀ path ∈ targets, path ∈ t.units.map (·.path)

theorem confined_nil (t : LinkTables) : Confined t [] := fun _ _ h => absurd h List.not_mem_nil

theorem confined_keep (hs : Confined t s) (k : ExportKey) (l : Lookup) : Confined t ((keep k l).run s).2 := by
  unfold keep
  split
  · intro key targets hm
    cases List.mem_cons.mp hm with
    | inl he => exact absurd he nofun
    | inr hm => exact hs key targets hm
  · exact hs

theorem confined_targets (hs : Confined t s) (r : ModuleRequest) (source : Text) :
    (∀ path ∈ ((targets t r source).run s).1, path ∈ t.units.map (·.path)) ∧
      Confined t ((targets t r source).run s).2 := by
  cases hkept : s.modules? (requestText r source) with
  | some kept =>
    have hrun : (targets t r source).run s = (kept, s) := by
      simp only [targets, StateT.run_bind, StateT.run_get, pure_bind, hkept]
      rfl
    rw [hrun]
    refine ⟨?_, hs⟩
    obtain ⟨m, hm, he⟩ := List.exists_of_findSome?_eq_some hkept
    cases m with
    | symbol key value => cases he
    | modules key ts =>
      simp only [Option.ite_none_right_eq_some, Option.some.injEq] at he
      exact he.2 ▸ hs key ts hm
  | none =>
    have hrun : (targets t r source).run s =
        (t.targets r source, .modules (requestText r source) (t.targets r source) :: s) := by
      simp only [targets, StateT.run_bind, StateT.run_get, pure_bind, hkept]
      rfl
    have hfiles : ∀ path ∈ t.targets r source, path ∈ t.units.map (·.path) := fun path hp =>
      (LinkTables.mem_targets hp).1
    rw [hrun]
    refine ⟨hfiles, fun key ts hm => ?_⟩
    cases List.mem_cons.mp hm with
    | inl he =>
      obtain ⟨-, rfl⟩ := Memo.modules.inj he
      exact hfiles
    | inr hm => exact hs key ts hm

end Confined

section Ends

def keyTexts (paths names : List Text) : Finset Text :=
  (paths.toFinset ×ˢ names.toFinset).image fun p => (ExportKey.mk p.1 p.2).text

theorem mem_keyTexts {paths : List Text} (hp : k.path ∈ paths) (hn : k.name ∈ names) : k.text ∈ keyTexts paths names :=
  Finset.mem_image.mpr ⟨(k.path, k.name), Finset.mem_product.mpr ⟨List.mem_toFinset.mpr hp, List.mem_toFinset.mpr hn⟩,
    rfl⟩

theorem card_keyTexts_le (paths names : List Text) :
    (keyTexts paths names).card ≤ paths.length * names.toFinset.card := by
  refine Finset.card_image_le.trans ?_
  rw [Finset.card_product]
  exact Nat.mul_le_mul_right _ (List.toFinset_card_le paths)

structure Fits (texts : Finset Text) (visiting : List Text) : Prop where
  nodup : visiting.Nodup
  mem : ∀ x ∈ visiting, x ∈ texts

theorem Fits.cons {texts : Finset Text} (h : Fits texts visiting) {x : Text} (hx : x ∈ texts) (hnew : x ∉ visiting) :
    Fits texts (x :: visiting) :=
  ⟨List.nodup_cons.mpr ⟨hnew, h.nodup⟩, List.forall_mem_cons.mpr ⟨hx, h.mem⟩⟩

theorem Fits.length_le {texts : Finset Text} (h : Fits texts visiting) : visiting.length ≤ texts.card := by
  rw [← List.toFinset_card_of_nodup h.nodup]
  exact Finset.card_le_card fun x hx => h.mem x (List.mem_toFinset.mp hx)

/-- An inquiry has a course if the names that it asks about have one. -/
theorem course_run (find : ExportKey → StateM LinkSession Lookup) {q : Inquiry}
    (hq : q.Stays (t.units.map (·.path)) names) (hs : Confined t s)
    (hfind : ∀ k s, k.path ∈ t.units.map (·.path) → k.name ∈ names → Confined t s →
      Course t room visiting (.name k) s ((find k).run s).1 ((find k).run s).2 ∧ Confined t ((find k).run s).2) :
    Course t room visiting (.inquiry q) s ((q.run (targets t) find).run s).1 ((q.run (targets t) find).run s).2 ∧
      Confined t ((q.run (targets t) find).run s).2 := by
  induction q generalizing s with
  | answer l => exact ⟨.answer, hs⟩
  | modules r source next ih =>
    obtain ⟨hfiles, hs'⟩ := confined_targets hs r source
    obtain ⟨hcourse, hs''⟩ := ih _ (hq _ hfiles) hs'
    exact ⟨.modules hcourse, hs''⟩
  | name k next ih =>
    obtain ⟨hpath, hname, hnext⟩ := hq
    obtain ⟨hfound, hs'⟩ := hfind k s hpath hname hs
    obtain ⟨hcourse, hs''⟩ := ih _ (hnext _) hs'
    exact ⟨.asked hfound hcourse, hs''⟩

theorem search_of_kept_text {fuel : Nat} {value : Option Text} (hkept : s.symbol? k.text = some value) :
    (search t (fuel + 1) visiting k).run s = (⟨value, true⟩, s) := by
  simp only [search, StateT.run_bind, StateT.run_get, pure_bind, hkept]
  rfl

theorem search_of_seen {fuel : Nat} (hfresh : s.symbol? k.text = none) (hseen : k.text ∈ visiting) :
    (search t (fuel + 1) visiting k).run s = (⟨none, false⟩, s) := by
  simp only [search, StateT.run_bind, StateT.run_get, pure_bind, hfresh, List.elem_iff.mpr hseen, if_true]
  rfl

theorem search_of_unseen {fuel : Nat} (hfresh : s.symbol? k.text = none) (hunseen : k.text ∉ visiting) :
    (search t (fuel + 1) visiting k).run s =
      let x := ((t.inquiry k).run (targets t) fun next => search t fuel (k.text :: visiting) next).run s
      (x.1, ((keep k x.1).run x.2).2) := by
  simp only [search, StateT.run_bind, StateT.run_get, pure_bind, hfresh, if_neg (mt List.elem_iff.mp hunseen)]
  rfl

/-- With more fuel than there are names that are not on the way, the search takes its course. -/
theorem course_search {path : Text} (hn : ∀ n ∈ t.allNames, n ∈ names)
    (hroom : (keyTexts (path :: t.units.map (·.path)) names).card ≤ room) {fuel : Nat}
    (hpath : k.path ∈ path :: t.units.map (·.path)) (hname : k.name ∈ names) (hfuel : t.unseen names visiting < fuel)
    (hfits : Fits (keyTexts (path :: t.units.map (·.path)) names) visiting) (hs : Confined t s) :
    Course t room visiting (.name k) s ((search t fuel visiting k).run s).1 ((search t fuel visiting k).run s).2 ∧
      Confined t ((search t fuel visiting k).run s).2 := by
  -- each name that is followed is put on the way, so that one fewer is not on it
  induction fuel generalizing visiting k s with
  | zero => omega
  | succ fuel ih =>
    cases hkept : s.symbol? k.text with
    | some value =>
      rw [search_of_kept_text hkept]
      exact ⟨.kept hkept, hs⟩
    | none =>
      by_cases hseen : k.text ∈ visiting
      · rw [search_of_seen hkept hseen]
        exact ⟨.passed hkept hseen, hs⟩
      have hfits' := hfits.cons (mem_keyTexts hpath hname) hseen
      have hrun : Course t room (k.text :: visiting) (.inquiry (t.inquiry k)) s
          (((t.inquiry k).run (targets t) fun next => search t fuel (k.text :: visiting) next).run s).1
          (((t.inquiry k).run (targets t) fun next => search t fuel (k.text :: visiting) next).run s).2 ∧
            Confined t (((t.inquiry k).run (targets t) fun next => search t fuel
              (k.text :: visiting) next).run s).2 := by
        unfold LinkTables.inquiry
        cases hunit : t.unit? k.path with
        | none => exact ⟨.answer, hs⟩
        | some u =>
          have hmem := (LinkTables.unit?_mem hunit).1
          have hreachable : k ∈ t.reachable names :=
            LinkTables.mem_reachable.mpr ⟨LinkTables.unit?_isSome.mp (Option.isSome_iff_exists.mpr ⟨u, hunit⟩), hname⟩
          have hlt := LinkTables.unseen_cons_lt hreachable hseen
          refine course_run _ (LinkUnit.stays_name (fun n h => hn n
            (LinkTables.names_subset_allNames hmem h)) hname) hs ?_
          exact fun k' s' hpath' hname' hs' => ih (List.mem_cons_of_mem _ hpath') hname' (by omega) hfits' hs'
      rw [search_of_unseen hkept hseen]
      exact ⟨.followed hkept hseen (hfits'.length_le.trans hroom) hrun.1, confined_keep hrun.2 k _⟩

end Ends
end LinkSession

namespace LinkQuery

def name : LinkQuery → Text
  | exported _ name => name
  | imported _ _ name => name

def task : LinkQuery → SearchTask
  | exported path name => .name ⟨path, name⟩
  | imported path request name => .inquiry (Inquiry.imported path request name)

def room (t : LinkTables) (q : LinkQuery) : Nat := (t.units.length + 1) * (q.name :: t.allNames).toFinset.card

end LinkQuery

namespace LinkSession
variable {t : LinkTables} {s : LinkSession}

theorem card_keyTexts_le_room (t : LinkTables) (q : LinkQuery) (path : Text) :
    (keyTexts (path :: t.units.map (·.path)) (q.name :: t.allNames)).card ≤ q.room t := by
  refine (card_keyTexts_le _ _).trans (Nat.le_of_eq ?_)
  rw [List.length_cons, List.length_map, LinkQuery.room]

/-- Each question to a session of a project has a course, and the session keeps files of the project alone. -/
theorem course_answer (q : LinkQuery) (hs : Confined t s) : ∃ l s', Course t (q.room t) [] q.task s l s' ∧
    (answer t q).run s = (l.value, s') ∧ Confined t s' := by
  have hroot : ∀ k s, k.path ∈ q.path :: t.units.map (·.path) → k.name = q.name → Confined t s →
      Course t (q.room t) [] (.name k) s ((search t t.searchBound [] k).run s).1
        ((search t t.searchBound [] k).run s).2 ∧
        Confined t ((search t t.searchBound [] k).run s).2 := by
    intro k s hpath hname hs
    exact course_search (fun _ hn => List.mem_cons_of_mem q.name hn) (card_keyTexts_le_room t q q.path) hpath
      (hname ▸ List.mem_cons_self) (t.unseen_lt_searchBound q.name)
        ⟨List.nodup_nil, fun _ hx => absurd hx List.not_mem_nil⟩ hs
  cases q with
  | exported path name =>
    obtain ⟨hcourse, hs'⟩ := hroot ⟨path, name⟩ s List.mem_cons_self rfl hs
    exact ⟨_, _, hcourse, rfl, hs'⟩
  | imported path request name =>
    obtain ⟨hcourse, hs'⟩ := course_run (search t t.searchBound [])
      (Inquiry.stays_imported path request (List.mem_singleton_self name)) hs fun k s hpath hname hs =>
        hroot k s (List.mem_cons_of_mem _ hpath) (List.mem_singleton.mp hname) hs
    exact ⟨_, _, hcourse, rfl, hs'⟩

theorem confined_answers (t : LinkTables) (qs : List LinkQuery) (hs : Confined t s) :
    Confined t ((qs.mapM (answer t)).run s).2 := by
  induction qs generalizing s with
  | nil => exact hs
  | cons q rest ih =>
    rw [List.mapM_cons]
    obtain ⟨_, s', _, hanswer, hs'⟩ := course_answer q hs
    have hrun : (((answer t q) >>= fun a => do return a :: (← rest.mapM (answer t))).run s).2 =
        ((rest.mapM (answer t)).run s').2 := by
      rw [StateT.run_bind, hanswer]
      rfl
    exact hrun ▸ ih hs'

/-- Whatever the units are and whatever was asked before, the search for an answer ends: it has one course, in which
there are never more names on the way than there is room, and this is what the session does. -/
theorem answer_ends (t : LinkTables) (earlier : List LinkQuery) (q : LinkQuery) :
    let s := ((earlier.mapM (answer t)).run []).2
    ∃ l s', Course t (q.room t) [] q.task s l s' ∧ (answer t q).run s = (l.value, s') ∧
      ∀ room l' s'', Course t room [] q.task s l' s'' → l' = l ∧ s'' = s' := by
  intro s
  obtain ⟨l, s', hcourse, hanswer, _⟩ := course_answer q (confined_answers t earlier (confined_nil t))
  exact ⟨l, s', hcourse, hanswer, fun room l' s'' h => hcourse.unique h⟩

end LinkSession
end AnnotationIndex
