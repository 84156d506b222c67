import UnitRegex.Proofs.Automaton.Installed
import UnitRegex.Proofs.Search.Leftmost

/-!
Loops that count and loops that are unrolled. Both arrive behind themselves in the same order, so
the limit up to which loops are unrolled makes no difference to what a simulation finds.
-/

namespace UnitRegex

namespace Nfa

variable {nfa : Nfa} {text : Text} {start stop : Nat}

/-! ### Searches with a limit -/

/-- Behind a limit everything stays behind it. -/
theorem Unfolds.lt_cursor (hd : nfa.direction = .forward) (hstop : stop < text.size) {lo hi : Nat}
    {before after : List Configuration} (h : nfa.Unfolds text lo hi before after)
    (hbefore : ∀ x ∈ before, stop < x.cursor) : ∀ y ∈ after, stop < y.cursor := by
  intro y hy
  have hleft := h.left_le (n := text.size - (stop + 1)) (fun x hx => by
    have := hbefore x hx
    simp only [hd, Text.left]
    omega) y hy
  simp only [hd, Text.left] at hleft
  omega

/-- A search with a limit finds what a search without one finds first among what ends within the
limit. -/
theorem Unfolds.findSome?_first_limit (h : nfa.Grounded) (hd : nfa.direction = .forward)
    (hstop : stop ≤ text.size) {lo hi : Nat} {before after : List Configuration}
    (hunfolds : nfa.Unfolds text lo hi before after) (hbefore : ∀ x ∈ before, x.cursor ≤ stop) :
    before.findSome? (nfa.first h text stop) =
      (after.filter fun y => y.cursor ≤ stop).findSome? (nfa.first h text stop) := by
  induction hunfolds with
  | nil => rfl
  | leave x _ ih =>
    rw [List.filter_cons_of_pos (by simpa using hbefore x (by simp)), List.findSome?_cons,
      List.findSome?_cons, ih fun y hy => hbefore y (by simp [hy])]
  | @step x rest ways after _ _ haccept hways _ ihways ih =>
    have hrest := ih fun y hy => hbefore y (by simp [hy])
    have hx := hbefore x (by simp)
    suffices hfirst : nfa.first h text stop x =
        (ways.filter fun y => y.cursor ≤ stop).findSome? (nfa.first h text stop) by
      rw [List.filter_append, List.findSome?_cons, List.findSome?_append, hrest, hfirst]
      cases List.findSome? _ _ <;> rfl
    rw [first_eq_findSome? h haccept]
    rcases steps_of_limit hd hstop x with hsame | ⟨hnone, hfar⟩
    · rw [hsame]
      refine ihways fun y hy => ?_
      rw [← hsame] at hy
      rcases mem_steps hy with ⟨_, _, _, _, hread, hlt, _⟩ | ⟨hcursor, _⟩
      · rw [hd] at hread
        simp only [Text.read, Option.map_eq_some_iff, Prod.mk.injEq] at hread
        obtain ⟨_, -, -, hnext⟩ := hread
        have := hlt hd
        omega
      · rw [hcursor]
        exact hx
    · rw [hnone]
      have hgone : (ways.filter fun y => y.cursor ≤ stop) = [] := by
        rw [List.filter_eq_nil_iff]
        intro y hy
        rcases Nat.lt_or_ge stop text.size with hlt | hge
        · have := hways.lt_cursor hd hlt hfar y hy
          simpa using this
        · -- Without a limit in front of the end of the text the steps are all there are.
          obtain rfl : stop = text.size := Nat.le_antisymm hstop hge
          rw [hnone] at hways
          cases hways
          cases hy
      rw [hgone]

theorem Realizes.first_limit {f : Text → Behavior} (h : nfa.Realizes f)
    (hd : nfa.direction = .forward) (hstop : stop ≤ text.size) {x : Configuration}
    (hx : x.cursor ≤ stop) (hcounts : nfa.counters ≤ x.thread.counts.length) :
    (nfa.first h.grounded text stop (x.goTo nfa.start)).map Configuration.matchState =
      (f text x.matchState).find? fun y => y.cursor ≤ stop := by
  obtain ⟨after, hmap, haccept, hunfold⟩ := h.yields text x (Nat.le_trans hx hstop) hcounts
  have hfirst := hunfold.findSome?_first_limit h.grounded hd hstop (by simpa using hx)
  have hall : ∀ l : List Configuration, (∀ y ∈ l, nfa.state y.state = .accept) →
      l.findSome? (nfa.first h.grounded text stop) = l.head? := by
    intro l hl
    cases l with
    | nil => rfl
    | cons y rest =>
      rw [List.findSome?_cons, first_of_accept h.grounded (hl y (by simp))]
      rfl
  rw [hall _ fun y hy => haccept y (List.mem_filter.mp hy).1, List.head?_filter] at hfirst
  rw [← hmap, List.find?_map, Function.comp_def]
  show _ = Option.map _ (after.find? fun y => y.cursor ≤ stop)
  rw [← hfirst]
  cases hc : nfa.first _ text stop (x.goTo nfa.start) <;> simp [hc]

/-- Behind the limit no thread reads a unit, wherever the limit is. -/
theorem advance_of_limits {stop' cursor : Nat} (h : ¬cursor < stop) (h' : ¬cursor < stop')
    {threads : List Thread} {next : Frontier} {found : Option Slots} :
    Frontier.advance nfa text stop cursor threads next found =
      Frontier.advance nfa text stop' cursor threads next found := by
  induction threads generalizing found with
  | nil => rfl
  | cons t rest ih =>
    rw [Frontier.advance, Frontier.advance]
    simp only [h, h', decide_false, Bool.false_and, Bool.false_eq_true, if_false, ih]

/-- A simulation that starts behind its limit only looks at where it starts. -/
theorem findSlots_of_stop_le (hstart : start ≤ text.size) (hle : min stop text.size ≤ start)
    (anchored : Bool) :
    nfa.findSlots text start stop anchored = nfa.findSlots text start start anchored := by
  have hnot : ¬start < min stop text.size := by omega
  rw [findSlots, findSlots, Nat.min_eq_left hstart, runThreads, runThreads]
  simp only [if_neg hnot, if_neg (Nat.lt_irrefl start),
    advance_of_limits hnot (Nat.lt_irrefl start)]

end Nfa

/-- Two automata of one pattern give the same results, whatever limits they were built with. -/
theorem Pattern.Compiled.findSlots_congr {p : Pattern} {nfa nfa' : Nfa} (h : p.Compiled nfa)
    (h' : p.Compiled nfa') {text : Text} {start : Nat} (hstart : start ≤ text.size) (stop : Nat)
    (anchored : Bool) :
    nfa.findSlots text start stop anchored = nfa'.findSlots text start stop anchored := by
  have hthread : ∀ {nfa : Nfa} (h : p.Compiled nfa) {stop i : Nat}, stop ≤ text.size → i ≤ stop →
      nfa.threadSlots h.realizes.grounded text stop i (Thread.initial nfa) =
        ((p.outcomes text ⟨i, Slots.unset p.groupCount⟩).find? fun y => y.cursor ≤ stop).map
          MatchState.slots := by
    intro nfa h stop i hstop hi
    have hfirst := h.realizes.first_limit h.direction hstop (x := ⟨i, Thread.initial nfa⟩) hi
      (by simp [Thread.initial])
    have hview : (Configuration.mk i (Thread.initial nfa)).matchState =
        ⟨i, Slots.unset p.groupCount⟩ := by
      simp only [Configuration.matchState, Thread.initial, h.groupCount]
    rw [hview] at hfirst
    rw [← hfirst, Option.map_map]
    rfl
  have hwithin : ∀ stop, start ≤ stop → stop ≤ text.size →
      nfa.findSlots text start stop anchored = nfa'.findSlots text start stop anchored := by
    intro stop hle hstop
    rw [Nfa.findSlots_eq h.realizes.grounded h.direction (by omega),
      Nfa.findSlots_eq h'.realizes.grounded h'.direction (by omega), Nat.min_eq_left hstop]
    refine findSome?_congr fun i hi => ?_
    have hi := (Nfa.mem_attempts hle).mp hi
    rw [hthread h hstop hi.2.1, hthread h' hstop hi.2.1]
  rcases Nat.le_total (min stop text.size) start with hle | hle
  · rw [Nfa.findSlots_of_stop_le hstart hle, Nfa.findSlots_of_stop_le hstart hle]
    exact hwithin start (Nat.le_refl start) hstart
  · have hmin : ∀ nfa : Nfa, nfa.findSlots text start stop anchored =
        nfa.findSlots text start (min stop text.size) anchored := by
      intro nfa
      rw [Nfa.findSlots, Nfa.findSlots, Nat.min_eq_left (Nat.min_le_right stop text.size)]
    rw [hmin nfa, hmin nfa']
    exact hwithin _ hle (Nat.min_le_right _ _)

/-- A loop that counts and a loop that is unrolled arrive behind themselves in the same order, so a
simulation finds the same wherever the line between the two is drawn. -/
theorem Nfa.findSlots_maxUnroll {s : Source} {p : Pattern} (hparse : s.parse = .ok p)
    (text : Text) :
    (∀ (capture : Option Nat) (repeats : Option Quantifier) (body : Choice),
      .group capture repeats body ∈ p.root.subterms → body.nullable = false →
      body.hasBackReference = false → ∀ q : Quantifier, q.InOrder →
      ∀ (plan : BuildPlan) (id next entry entry' : Nat) (before after before' after' : Draft)
        (nfa nfa' : Nfa), plan.multiline = p.flags.multiline →
      nfa.Installs plan (plan.countedLoop id q (plan.cleared (.group capture repeats body))
        body.nullable (plan.pass id capture body)) next before after entry →
      nfa'.Installs plan (plan.unrolledLoop id q (plan.cleared (.group capture repeats body))
        body.nullable (plan.pass id capture body)) next before' after' entry' →
      ∀ x x' : Configuration, x.cursor ≤ text.size → x'.matchState = x.matchState →
      after.counters ≤ x.thread.counts.length → after'.counters ≤ x'.thread.counts.length →
      ∃ ends, nfa.Arrives text next (x.goTo entry) ends ∧
        nfa'.Arrives text next (x'.goTo entry') ends) ∧
    ∀ (q : NumberedPattern) (config : Config) (maxUnroll : Nat) (nfa nfa' : Nfa),
      NumberedPattern.number { p with } = .ok q → Nfa.build q config .forward = .ok nfa →
      Nfa.build q { config with maxUnroll := maxUnroll } .forward = .ok nfa' →
      ∀ start stop anchored, start ≤ text.size →
      nfa.findSlots text start stop anchored = nfa'.findSlots text start stop anchored := by
  constructor
  · intro capture repeats body hgroup hnull href q hq plan id next entry entry' before after
      before' after' nfa nfa' hmulti hcounted hunrolled x x' hx hsame hcounts hcounts'
    obtain ⟨hbody, hspan, -⟩ := (Source.wellFormed_of_parse hparse).1.of_mem_subterms hgroup
    have hwf : (Term.group capture (some q) body).WellFormed p.flags p.context :=
      ⟨hbody, hspan, fun _ hsome => Option.some.inj hsome ▸ hq⟩
    obtain ⟨c, f, hf, hconsumes⟩ := plan.exists_emits_iteration hmulti hwf href text
    have hcursor : x'.cursor = x.cursor := congrArg MatchState.cursor hsame
    have hspan' : plan.cleared (.group capture repeats body) =
        plan.cleared (.group capture (some q) body) := by
      cases capture <;> rfl
    rw [hspan'] at hcounted hunrolled
    refine ⟨_, hcounted.arrives (Emits.countedLoop (hf id) hconsumes hq) hx hcounts, ?_⟩
    rw [← hsame]
    exact hunrolled.arrives (Emits.unrolledLoop (hf id) hconsumes) (hcursor ▸ hx) hcounts'
  · intro q config maxUnroll nfa nfa' hnumber hbuild hbuild' start stop anchored hstart
    exact (Source.compiled_of_build hparse hnumber hbuild).findSlots_congr
      (Source.compiled_of_build hparse hnumber hbuild') hstart stop anchored

/-- The loop of `(a|b){2,3}` on `abab`, unrolled and with a counter. -/
theorem Nfa.findSlots_maxUnroll_twice :
    ∃ (p : Pattern) (after after' : Draft) (x : Configuration) (nfa nfa' : Nfa),
      Source.parse ⟨"(a|b){2,3}", {}, {}⟩ = .ok p ∧
      (∃ ends, (after.toNfa .forward).Arrives #[97, 98, 97, 98] 0 (x.goTo 9) ends ∧
        (after'.toNfa .forward).Arrives #[97, 98, 97, 98] 0 (x.goTo 19) ends) ∧
      Nfa.build ⟨p, true⟩ {} .forward = .ok nfa ∧
      Nfa.build ⟨p, true⟩ { maxUnroll := 0 } .forward = .ok nfa' ∧
      nfa'.findSlots #[97, 98, 97, 98] 0 4 false = some #[0, 3, 2, 3] := by
  let text : Text := #[97, 98, 97, 98]
  let q : Quantifier := ⟨2, some 3, true⟩
  let body : Choice := .more (.cons (.unit (.single 97)) .nil)
    (.one (.cons (.unit (.single 98)) .nil))
  let p : Pattern := ⟨.one (.cons (.group (some 1) (some q) body) .nil), {}, 2, [], 0⟩
  let plan : BuildPlan := ⟨{}, .forward, false⟩
  let before : Draft := { nodes := #[⟨.accept, 0⟩] }
  have hparse : Source.parse ⟨"(a|b){2,3}", {}, {}⟩ = .ok p := by cbv
  have hcounted : ((plan.countedLoop 1 q (plan.cleared (.group (some 1) (some q) body))
      body.nullable (plan.pass 1 (some 1) body) 0 before).toOption.any fun r =>
        r.1 = 9 && r.2.counters = 1) = true := by cbv
  have hunrolled : ((plan.unrolledLoop 1 q (plan.cleared (.group (some 1) (some q) body))
      body.nullable (plan.pass 1 (some 1) body) 0 before).toOption.any fun r =>
        r.1 = 19 && r.2.counters = 0) = true := by cbv
  have hok : ((Nfa.build ⟨p, true⟩ {} .forward).toOption.any fun nfa =>
      decide (nfa.findSlots text 0 4 false = some #[0, 3, 2, 3])) = true := by cbv
  have hok' : ((Nfa.build ⟨p, true⟩ { maxUnroll := 0 } .forward).toOption.any
      fun _ => true) = true := by cbv
  obtain ⟨⟨entry, after⟩, hcounted, hentry⟩ := exists_eq_ok_of_any hcounted
  obtain ⟨⟨entry', after'⟩, hunrolled, hentry'⟩ := exists_eq_ok_of_any hunrolled
  obtain ⟨rfl, hcounters⟩ : entry = 9 ∧ after.counters = 1 := by simpa using hentry
  obtain ⟨rfl, hcounters'⟩ : entry' = 19 ∧ after'.counters = 0 := by simpa using hentry'
  obtain ⟨nfa, hbuild, hslots⟩ := exists_eq_ok_of_any hok
  obtain ⟨nfa', hbuild', -⟩ := exists_eq_ok_of_any hok'
  have hgroup : Term.group (some 1) (some q) body ∈ p.root.subterms :=
    List.mem_cons_of_mem _ List.mem_cons_self
  obtain ⟨harrives, hfind⟩ := Nfa.findSlots_maxUnroll hparse text
  let x : Configuration := ⟨0, ⟨0, [0], Slots.unset 2⟩⟩
  refine ⟨p, after, after', x, nfa, nfa', hparse, ?_, hbuild, hbuild', ?_⟩
  · exact harrives (some 1) (some q) body hgroup (by decide) (by decide) q (by simp [q,
        Quantifier.InOrder]) plan 1 0 9 19 before after before after' _ _ rfl
      ⟨hcounted, by decide, rfl, after.extends_toNfa .forward _⟩
      ⟨hunrolled, by decide, rfl, after'.extends_toNfa .forward _⟩ x x (Nat.zero_le _) rfl
      (Nat.le_of_eq hcounters) (by omega)
  · rw [← hfind ⟨p, true⟩ {} 0 nfa nfa' rfl hbuild hbuild' 0 4 false (Nat.zero_le _)]
    exact of_decide_eq_true hslots

end UnitRegex
