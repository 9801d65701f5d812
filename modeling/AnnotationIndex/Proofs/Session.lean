import AnnotationIndex.Link.Session
import AnnotationIndex.Proofs.Search

/-!
A session finds what the plain search finds. A kept answer was complete, so it rests on names that are
answered without passing anything over. Such a name is settled strictly later than all names that it rests
on, and so a kept name is never reached with one of the names below it already on the way.
-/
namespace AnnotationIndex
open Text

def Plain (t : Text) : Prop := separator ∉ t

instance (t : Text) : Decidable (Plain t) := inferInstanceAs (Decidable (separator ∉ t))

theorem plain_append_cancel {a b r s : Text} (ha : Plain a) (hb : Plain b)
    (h : a ++ separator :: r = b ++ separator :: s) : a = b ∧ r = s := by
  induction a generalizing b with
  | nil =>
    cases b with
    | nil => exact ⟨rfl, (List.cons.inj h).2⟩
    | cons v b => exact absurd (List.cons.inj h).1 fun he => hb (he ▸ List.mem_cons_self)
  | cons u a ih =>
    cases b with
    | nil => exact absurd (List.cons.inj h).1 fun he => ha (he ▸ List.mem_cons_self)
    | cons v b =>
      obtain ⟨rfl, ht⟩ := List.cons.inj h
      obtain ⟨rfl, hr⟩ := ih (fun hm => ha (List.mem_cons_of_mem _ hm)) (fun hm => hb (List.mem_cons_of_mem _ hm)) ht
      exact ⟨rfl, hr⟩

theorem ExportKey.text_inj {j k : ExportKey} (hj : Plain j.path) (hk : Plain k.path)
    (h : j.text = k.text) : j = k := by
  obtain ⟨hp, hn⟩ := plain_append_cancel hj hk h
  cases j
  cases k
  simp_all

theorem requestText_inj {r r' : ModuleRequest} {source source' : Text} (hs : Plain source)
    (hs' : Plain source') (h : LinkSession.requestText r source = LinkSession.requestText r' source') :
    r = r' ∧ source = source' := by
  obtain ⟨hsource, hrest⟩ := plain_append_cancel hs hs' h
  refine ⟨?_, hsource⟩
  obtain ⟨specifier, wildcard⟩ := r
  obtain ⟨specifier', wildcard'⟩ := r'
  have hlast := congrArg List.getLast? hrest
  have hstar : (0 :: ofString "*").getLast? = some 42 := by decide
  cases wildcard <;> cases wildcard'
  · simpa using hrest
  · simp [separator, hstar] at hlast
  · simp [separator, hstar] at hlast
  · simpa using hrest

namespace LinkTables
variable {t : LinkTables} {k : ExportKey}

section Settle

/-- The answer for a name if the search comes to an end without passing anything over. -/
def settle (t : LinkTables) : Nat → ExportKey → Option Lookup
  | 0, _ => none
  | n + 1, k => (t.inquiry k).run (fun r s => some (t.targets r s)) (settle t n)

theorem settle_succ {n : Nat} {l : Lookup} (h : t.settle n k = some l) : t.settle (n + 1) k = some l := by
  induction n generalizing k l with
  | zero => exact nomatch h
  | succ n ih => exact Inquiry.run_mono (fun j a ha => ih ha) h

theorem settle_mono {m n : Nat} {l : Lookup} (hmn : m ≤ n) (h : t.settle m k = some l) :
    t.settle n k = some l := by
  induction hmn with
  | refl => exact h
  | step _ ih => exact settle_succ ih

/-- A name that is settled at all has a last stage before it is. -/
theorem exists_settling {n : Nat} (h : t.settle n k ≠ none) :
    ∃ m < n, t.settle m k = none ∧ t.settle (m + 1) k ≠ none := by
  induction n with
  | zero => exact absurd rfl h
  | succ n ih =>
    by_cases hn : t.settle n k = none
    · exact ⟨n, Nat.lt_succ_self n, hn, h⟩
    · obtain ⟨m, hm, h⟩ := ih hn
      exact ⟨m, Nat.lt_succ_of_lt hm, h⟩

/-- A complete answer is settled. -/
theorem settle_of_complete {fuel : Nat} {visiting : List Text}
    (h : (t.search fuel visiting k).complete = true) :
    t.settle fuel k = some (t.search fuel visiting k) := by
  induction fuel generalizing visiting k with
  | zero => exact absurd h Bool.false_ne_true
  | succ fuel ih =>
    rw [search] at h ⊢
    split at h
    · exact absurd h Bool.false_ne_true
    next hv =>
    rw [if_neg hv]
    exact (Inquiry.run_eq_of_complete (t.honest_inquiry k) (fun j hj => ih hj) h).2

/-- Below names that are not settled yet, the search finds what is settled. -/
theorem search_of_settle (hu : ∀ u ∈ t.units, Plain u.path) {names : List Text}
    (hn : ∀ n ∈ t.allNames, n ∈ names) {n fuel : Nat} {visiting : List Text} {l : Lookup}
    (hname : k.name ∈ names) (hpath : Plain k.path)
    (hv : ∀ j : ExportKey, Plain j.path → j.text ∈ visiting → t.settle n j = none)
    (hfuel : t.unseen names visiting < fuel) (hl : t.settle n k = some l) :
    t.search fuel visiting k = l := by
  induction n generalizing k l fuel visiting with
  | zero => exact nomatch hl
  | succ n ih =>
    have hv' : ∀ j : ExportKey, Plain j.path → j.text ∈ visiting → t.settle n j = none := by
      intro j hj hm
      cases ha : t.settle n j with
      | none => rfl
      | some a => exact nomatch (hv j hj hm).symm.trans (settle_succ ha)
    cases hs : t.settle n k with
    | some a =>
      obtain rfl := Option.some.inj ((settle_succ hs).symm.trans hl)
      exact ih hname hpath hv' hfuel hs
    | none =>
      cases fuel with
      | zero => omega
      | succ fuel =>
        have hk : k.text ∉ visiting := fun hm => nomatch (hv k hpath hm).symm.trans hl
        rw [search, if_neg (by simpa using hk)]
        refine Inquiry.eval_eq_of_run (asks_names hn hname) (fun next hnext a ha => ⟨?_, ?_⟩) hl
        · have hlt := unseen_cons_lt hnext.2 hk
          obtain ⟨hp, hm⟩ := mem_reachable.mp hnext.1
          obtain ⟨u, hmem, he⟩ := List.mem_map.mp hp
          refine ih hm (he ▸ hu u hmem) (fun j hj hvis => ?_) (by omega) ha
          cases List.mem_cons.mp hvis with
          | inl he => exact ExportKey.text_inj hj hpath he ▸ hs
          | inr hvis => exact hv' j hj hvis
        · exact fun _ _ => .inr trivial

end Settle
end LinkTables

def Memo.Sound (t : LinkTables) : Memo → Prop
  | symbol key value => ∃ k : ExportKey, Plain k.path ∧ k.text = key ∧ ∃ n, t.settle n k = some ⟨value, true⟩
  | modules key targets => ∃ (r : ModuleRequest) (source : Text),
      Plain source ∧ LinkSession.requestText r source = key ∧ t.targets r source = targets

inductive LinkQuery where
  | exported (path name : Text)
  | imported (path : Text) (request : ModuleRequest) (name : Text)

def LinkQuery.path : LinkQuery → Text
  | exported path _ => path
  | imported path _ _ => path

def LinkTables.answer (t : LinkTables) : LinkQuery → Option Text
  | .exported path name => t.resolveExport path name
  | .imported path request name => t.resolveImported path request name

namespace LinkSession
variable {t : LinkTables} {α β : Type}

def answer (t : LinkTables) : LinkQuery → StateM LinkSession (Option Text)
  | .exported path name => resolveExport t path name
  | .imported path request name => resolveImported t path request name

def answers (t : LinkTables) (qs : List LinkQuery) : List (Option Text) :=
  ((qs.mapM (answer t)).run []).1

def Sound (t : LinkTables) (s : LinkSession) : Prop := ∀ m ∈ s, m.Sound t

theorem sound_nil (t : LinkTables) : Sound t [] := fun _ hm => nomatch hm

theorem sound_cons {m : Memo} {s : LinkSession} (hm : m.Sound t) (hs : Sound t s) : Sound t (m :: s) := by
  intro m' hm'
  cases List.mem_cons.mp hm' with
  | inl he => exact he ▸ hm
  | inr h => exact hs m' h

theorem settled_of_symbol? {s : LinkSession} (hs : Sound t s) {k : ExportKey} (hk : Plain k.path)
    {value : Option Text} (h : s.symbol? k.text = some value) : ∃ n, t.settle n k = some ⟨value, true⟩ := by
  obtain ⟨m, hm, h⟩ := List.exists_of_findSome?_eq_some h
  cases m with
  | modules key targets => exact nomatch h
  | symbol key v =>
    obtain ⟨j, hj, rfl, hn⟩ := hs _ hm
    simp only [Option.ite_none_right_eq_some, beq_iff_eq] at h
    obtain ⟨he, hv⟩ := h
    obtain rfl := ExportKey.text_inj hj hk he
    exact Option.some.inj hv ▸ hn

theorem targets_of_modules? {s : LinkSession} (hs : Sound t s) {r : ModuleRequest} {source : Text}
    (hsource : Plain source) {targets : List Text} (h : s.modules? (requestText r source) = some targets) :
    t.targets r source = targets := by
  obtain ⟨m, hm, h⟩ := List.exists_of_findSome?_eq_some h
  cases m with
  | symbol key value => exact nomatch h
  | modules key ts =>
    obtain ⟨r', source', hsource', rfl, rfl⟩ := hs _ hm
    simp only [Option.ite_none_right_eq_some, beq_iff_eq, Option.some.injEq] at h
    obtain ⟨he, rfl⟩ := h
    obtain ⟨rfl, rfl⟩ := requestText_inj hsource' hsource he
    rfl

def Gives (t : LinkTables) (x : StateM LinkSession α) (a : α) : Prop :=
  ∀ s, Sound t s → ∃ s', x.run s = (a, s') ∧ Sound t s'

theorem gives_pure (t : LinkTables) (a : α) : Gives t (pure a) a := fun s hs => ⟨s, rfl, hs⟩

theorem Gives.bind {x : StateM LinkSession α} {f : α → StateM LinkSession β} {a : α} {b : β}
    (hx : Gives t x a) (hf : Gives t (f a) b) : Gives t (x >>= f) b := by
  intro s hs
  obtain ⟨s', hx, hs'⟩ := hx s hs
  obtain ⟨s'', hf, hs''⟩ := hf s' hs'
  refine ⟨s'', ?_, hs''⟩
  rw [StateT.run_bind, hx]
  exact hf

theorem gives_mapM {γ : Type} {f : γ → StateM LinkSession α} {g : γ → α} {cs : List γ}
    (h : ∀ c ∈ cs, Gives t (f c) (g c)) : Gives t (cs.mapM f) (cs.map g) := by
  induction cs with
  | nil => exact gives_pure t []
  | cons c rest ih =>
    rw [List.mapM_cons]
    have hrest := ih fun d hd => h d (List.mem_cons_of_mem c hd)
    exact (h c List.mem_cons_self).bind (hrest.bind (gives_pure t _))

theorem gives_targets {r : ModuleRequest} {source : Text} (hsource : Plain source) :
    Gives t (targets t r source) (t.targets r source) := by
  intro s hs
  cases h : s.modules? (requestText r source) with
  | some ts =>
    refine ⟨s, ?_, hs⟩
    rw [targets_of_modules? hs hsource h]
    simp only [targets, StateT.run_bind, StateT.run_get, pure_bind, h]
    rfl
  | none =>
    refine ⟨.modules (requestText r source) (t.targets r source) :: s, ?_, ?_⟩
    · simp only [targets, StateT.run_bind, StateT.run_get, pure_bind, h]
      rfl
    · exact sound_cons ⟨r, source, hsource, rfl, rfl⟩ hs

/-- An inquiry in a session keeps step with its evaluation; `R` is what remains true on the way. -/
theorem gives_run {P : ModuleRequest → Text → Prop} {Q : ExportKey → Prop} {R : Inquiry → Prop}
    {found : ExportKey → Lookup} {find : ExportKey → StateM LinkSession Lookup}
    (ht : ∀ r source, P r source → Plain source)
    (hfind : ∀ k next, Q k → R (.name k next) → Gives t (find k) (found k) ∧ R (next (found k)))
    (hmodules : ∀ r source next, R (.modules r source next) → R (next (t.targets r source)))
    {q : Inquiry} (hq : q.Asks t.targets P Q fun _ => True) (hr : R q) :
    Gives t (q.run (targets t) find) (q.eval t.targets found) := by
  induction q with
  | answer l => exact gives_pure t l
  | modules r source next ih =>
    exact (gives_targets (ht r source hq.1)).bind (ih _ hq.2 (hmodules r source next hr))
  | name k next ih =>
    obtain ⟨hk, hnext⟩ := hfind k next hq.1 hr
    exact hk.bind (ih _ (hq.2 _ fun _ _ => .inr trivial) hnext)

/-- Every name on the way that is settled at all is settled later than `k`. -/
def Above (t : LinkTables) (visiting : List Text) (k : ExportKey) : Prop :=
  ∀ j : ExportKey, Plain j.path → j.text ∈ visiting → ∀ n, t.settle (n + 1) j ≠ none → t.settle n k ≠ none

/-- What remains of an inquiry for `k` comes to an end as soon as `k` is settled. -/
def Remains (t : LinkTables) (k : ExportKey) (q : Inquiry) : Prop :=
  ∀ n, t.settle n k = none → t.settle (n + 1) k ≠ none →
    q.run (fun r s => some (t.targets r s)) (t.settle n) ≠ none

theorem Remains.next {k j : ExportKey} {next : Lookup → Inquiry} (h : Remains t k (.name j next)) {n : Nat}
    (hn : t.settle n k = none) (hn' : t.settle (n + 1) k ≠ none) : ∃ l, t.settle n j = some l ∧
      (next l).run (fun r s => some (t.targets r s)) (t.settle n) ≠ none := by
  have hr := h n hn hn'
  rw [Inquiry.run, Option.bind_eq_bind] at hr
  cases hj : t.settle n j with
  | none => simp [hj] at hr
  | some l => exact ⟨l, rfl, by simpa [hj] using hr⟩

/-- A name that `k` rests on is below `k` and below all that is above `k`. -/
theorem Above.cons {visiting : List Text} {k j : ExportKey} (hk : Plain k.path) (ha : Above t visiting k)
    {next : Lookup → Inquiry} (hr : Remains t k (.name j next)) : Above t (k.text :: visiting) j := by
  intro i hi hmem n hn
  have below : ∀ m, t.settle (m + 1) k ≠ none → t.settle m j ≠ none := by
    intro m hm
    obtain ⟨m', hlt, hnone, hsome⟩ := LinkTables.exists_settling hm
    obtain ⟨l, hl, _⟩ := hr.next hnone hsome
    rw [LinkTables.settle_mono (by omega : m' ≤ m) hl]
    exact Option.some_ne_none l
  cases List.mem_cons.mp hmem with
  | inl he => exact below n (ExportKey.text_inj hi hk he ▸ hn)
  | inr hmem =>
    -- `i` is settled after `k`, and `k` after `j`
    have hset := ha i hi hmem n hn
    cases n with
    | zero => exact absurd rfl hset
    | succ m =>
      obtain ⟨l, hl⟩ := Option.ne_none_iff_exists'.mp (below m hset)
      rw [LinkTables.settle_succ hl]
      exact Option.some_ne_none l

section Search
variable {names visiting : List Text} {k : ExportKey}

/-- A kept answer is the one that the plain search finds on this way. -/
theorem search_of_kept (hu : ∀ u ∈ t.units, Plain u.path) (hn : ∀ n ∈ t.allNames, n ∈ names) {fuel : Nat}
    (hname : k.name ∈ names) (hpath : Plain k.path) (hfuel : t.unseen names visiting < fuel)
    (ha : Above t visiting k) {n : Nat} {l : Lookup} (hl : t.settle n k = some l) :
    t.search fuel visiting k = l := by
  obtain ⟨m, hm, hnone, hsome⟩ := LinkTables.exists_settling (by rw [hl]; exact Option.some_ne_none l)
  obtain ⟨l', hl'⟩ := Option.ne_none_iff_exists'.mp hsome
  obtain rfl := Option.some.inj ((LinkTables.settle_mono hm hl').symm.trans hl)
  refine LinkTables.search_of_settle hu hn hname hpath (fun j hj hmem => ?_) hfuel hl'
  cases hset : t.settle (m + 1) j with
  | none => rfl
  | some _ => exact absurd hnone (ha j hj hmem m (by simp [hset]))

theorem gives_keep {l : Lookup} {n : Nat} (hpath : Plain k.path)
    (hl : l.complete = true → t.settle n k = some l) : Gives t (keep k l) () := by
  intro s hs
  unfold keep
  cases hc : l.complete with
  | false => exact ⟨s, rfl, hs⟩
  | true =>
    refine ⟨.symbol k.text l.value :: s, rfl, sound_cons ⟨k, hpath, rfl, n, ?_⟩ hs⟩
    rw [hl hc, ← hc]

theorem gives_search (hu : ∀ u ∈ t.units, Plain u.path) (hn : ∀ n ∈ t.allNames, n ∈ names) {fuel : Nat}
    (hname : k.name ∈ names) (hpath : Plain k.path) (hfuel : t.unseen names visiting < fuel)
    (ha : Above t visiting k) : Gives t (search t fuel visiting k) (t.search fuel visiting k) := by
  induction fuel generalizing visiting k with
  | zero => omega
  | succ fuel ih =>
    intro s hs
    cases hkept : s.symbol? k.text with
    | some value =>
      obtain ⟨n, hl⟩ := settled_of_symbol? hs hpath hkept
      refine ⟨s, ?_, hs⟩
      rw [search_of_kept hu hn hname hpath hfuel ha hl]
      simp only [search, StateT.run_bind, StateT.run_get, pure_bind, hkept]
      rfl
    | none =>
      by_cases hv : visiting.elem k.text = true
      · refine ⟨s, ?_, hs⟩
        simp only [search, LinkTables.search, StateT.run_bind, StateT.run_get, pure_bind, hkept, hv, if_true]
        rfl
      have hplain : ∀ path, path ∈ t.units.map (·.path) → Plain path := by
        intro path hmem
        obtain ⟨u, hu', rfl⟩ := List.mem_map.mp hmem
        exact hu u hu'
      have hrun : Gives t ((t.inquiry k).run (targets t) fun next => search t fuel (k.text :: visiting) next)
          ((t.inquiry k).eval t.targets fun next => t.search fuel (k.text :: visiting) next) := by
        refine gives_run (R := Remains t k) (fun _ => hplain) (fun j next hj hr => ?_) (fun _ _ _ hr => hr)
          (LinkTables.asks_names hn hname) fun _ _ h => h
        obtain ⟨hjpath, hjname⟩ := LinkTables.mem_reachable.mp hj.1
        have hlt := LinkTables.unseen_cons_lt hj.2 (by simpa using hv)
        have habove := ha.cons hpath hr
        refine ⟨ih hjname (hplain _ hjpath) (by omega) habove, fun n hnone hsome => ?_⟩
        obtain ⟨l, hl, hrest⟩ := hr.next hnone hsome
        rw [search_of_kept hu hn hjname (hplain _ hjpath) (by omega) habove hl]
        exact hrest
      have hstep : t.search (fuel + 1) visiting k =
          (t.inquiry k).eval t.targets fun next => t.search fuel (k.text :: visiting) next := by
        rw [LinkTables.search, if_neg hv]
      rw [← hstep] at hrun
      have hkeep : Gives t (do keep k (t.search (fuel + 1) visiting k); return t.search (fuel + 1) visiting k)
          (t.search (fuel + 1) visiting k) :=
        (gives_keep hpath LinkTables.settle_of_complete).bind (gives_pure t _)
      obtain ⟨s', hs', hsound⟩ := hrun.bind (f := fun l => do keep k l; return l) hkeep s hs
      refine ⟨s', ?_, hsound⟩
      simp only [search, StateT.run_bind, StateT.run_get, pure_bind, hkept, if_neg hv] at hs' ⊢
      exact hs'

/-- A search that nothing led to. -/
theorem gives_search_root (hu : ∀ u ∈ t.units, Plain u.path) (hpath : Plain k.path) :
    Gives t (search t t.searchBound [] k) (t.search t.searchBound [] k) :=
  gives_search hu (fun _ hn => List.mem_cons_of_mem k.name hn) List.mem_cons_self hpath
    (t.unseen_lt_searchBound k.name) fun _ _ hm => nomatch hm

theorem gives_answer (hu : ∀ u ∈ t.units, Plain u.path) {q : LinkQuery} (hq : Plain q.path) :
    Gives t (answer t q) (t.answer q) := by
  cases q with
  | exported path name => exact (gives_search_root hu hq).bind (gives_pure t _)
  | imported path request name =>
    have hasks : (Inquiry.imported path request name).Asks t.targets (fun _ source => Plain source)
        (fun k => Plain k.path) fun _ => True := by
      refine Inquiry.asks_imported hq fun target ht => ?_
      obtain ⟨u, hmem, he⟩ := List.mem_map.mp (LinkTables.mem_targets ht).1
      exact he ▸ hu u hmem
    have hrun := gives_run (R := fun _ => True) (fun _ _ hs => hs)
      (fun k _ hk _ => ⟨gives_search_root hu hk, trivial⟩) (fun _ _ _ h => h) hasks trivial
    exact hrun.bind (gives_pure t _)

end Search

theorem answers_of_gives {qs : List LinkQuery} (h : ∀ q ∈ qs, Gives t (answer t q) (t.answer q)) :
    answers t qs = qs.map t.answer := by
  obtain ⟨s, hs, _⟩ := gives_mapM h [] (sound_nil t)
  exact congrArg Prod.fst hs

/-- Whatever a session was asked before, it answers as the plain search does, and so as a new session does. -/
theorem answers_eq_search (t : LinkTables) (qs : List LinkQuery) (hu : ∀ u ∈ t.units, Plain u.path)
    (hq : ∀ q ∈ qs, Plain q.path) :
    answers t qs = qs.map t.answer ∧ ∀ q ∈ qs, answers t [q] = [t.answer q] := by
  refine ⟨answers_of_gives fun q h => gives_answer hu (hq q h), fun q h => answers_of_gives ?_⟩
  intro q' h'
  rw [List.mem_singleton.mp h']
  exact gives_answer hu (hq q h)

def reexporter (path : Text) (exports : List ExportRow) : LinkUnit :=
  { path, language := "typescript", symbols := [], exports, imports := [], calls := [] }

def mutualReexporters : LinkTables :=
  ⟨[reexporter "m.ts" [ExportRow.again "f" "./n" "h", ExportRow.star "*" "./n"],
    reexporter "n.ts" [ExportRow.star "*" "./m", ExportRow.again "h" "lib" "h"]]⟩

theorem answers_eq_search_reexporter :
    answers mutualReexporters [.exported "m.ts" "g", .exported "n.ts" "f", .exported "m.ts" "f", .exported "n.ts" "f",
      .exported "m.ts" "f"] = [none, none, some external, none, some external] :=
  (answers_eq_search _ _ (by decide) (by decide)).1.trans (by decide +kernel)

/-- With the separator in a path, two names are kept under one text. -/
theorem answers_of_shared_text :
    let path := "p" ++ separator :: ofString "q.ts"
    let t : LinkTables := ⟨[reexporter path [ExportRow.again "f" "lib" "f"]]⟩
    let qs : List LinkQuery := [.exported "p" ("q.ts" ++ separator :: ofString "f"), .exported path "f"]
    answers t qs = [none, none] ∧ qs.map t.answer = [none, some external] := by
  decide

end LinkSession
end AnnotationIndex
