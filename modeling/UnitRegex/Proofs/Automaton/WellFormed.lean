import UnitRegex.Proofs.Automaton.Backward
import UnitRegex.Proofs.Automaton.LaidTerms
import UnitRegex.Proofs.Pattern.Indexed
import UnitRegex.Proofs.Pattern.Passes

/-!
Well-formed automata. Whatever a state of an automaton refers to exists, its counted loops are
complete, it cannot go in a circle without reading a unit, and its parts can be passed without one
just where the pattern says that a term can match empty.
-/

namespace UnitRegex

theorem Nfa.Grounded.not_transGen {nfa : Nfa} (h : nfa.Grounded) (a : Nat × List Nat) :
    ¬Relation.TransGen (fun a b => b ∈ nfa.epsilon a) a a := by
  have hwf : WellFounded fun b a => b ∈ nfa.epsilon a := ⟨fun a => acc_of_settles (h a)⟩
  intro hcycle
  exact hwf.transGen.irrefl.irrefl a (Relation.transGen_swap.mp hcycle)

/-! ### Ids and groups of a pattern -/

/-- The ids that a state can have: that of the loop back to the search, those of the entries that
skip units, and those of the nodes. -/
def Pattern.StateId (p : Pattern) (id : Nat) : Prop :=
  id = p.layout.loopBack ∨
    (∃ i, 1 ≤ i ∧ i ≤ p.context ∧ (id = p.layout.anchored i ∨ id = p.layout.unanchored i)) ∨
      ∃ n ∈ p.nodes, n.id = id

/-- What the automaton of a pattern may use. -/
def Pattern.scope (p : Pattern) : Scope := ⟨p.StateId, p.groupCount, p.context⟩

/-- The ids from the first one on are those of the nodes below the root's parent. -/
theorem Pattern.stateId_of_node (p : Pattern) {i : Nat} (hi : i ≤ p.root.size) :
    p.StateId (p.layout.first + i) := by
  obtain ⟨order, hwalk⟩ := p.exists_walk
  have hmem : some (p.layout.first + i) ∈ order.map fun s => p.nodes[s]?.map (·.id) := by
    rw [hwalk.ids]
    exact List.mem_map_of_mem (List.mem_range'_1.mpr (by omega))
  obtain ⟨slot, -, hslot⟩ := List.mem_map.mp hmem
  obtain ⟨n, hn, hid⟩ := Option.map_eq_some_iff.mp hslot
  exact .inr (.inr ⟨n, List.mem_of_getElem? hn, hid⟩)

/-- The groups of a pattern that was read are numbered below their count. -/
theorem Source.spanWithin_of_parse {s : Source} {p : Pattern} (h : s.parse = .ok p) :
    SpanWithin p.groupCount p.root.groupSpan := by
  obtain ⟨hbrackets, hcount, -⟩ := Source.outlined_of_parse h
  obtain ⟨k, hk, hopened⟩ := opened_brackets [] 1 (parens false s.pattern.toList) {}
  have hscan : s.setting.groups = (parens false s.pattern.toList).foldl GroupScan.meet {} :=
    GroupScan.run_eq {} false s.pattern.toList
  have hcaptures : p.root.captures = List.range' 0 p.groupCount := by
    rw [p.captures_root, Choice.captures, hbrackets, hopened, hcount, hscan, hk, Nat.zero_add,
      List.range'_succ]
  rw [p.root.groupSpan_of_captures hcaptures]
  intro r hr
  unfold spanOf at hr
  split at hr
  · cases hr
  · obtain rfl := Option.some.inj hr
    exact Nat.le_of_eq (Nat.zero_add _)

/-! ### Entries -/

variable {plan : BuildPlan} {scope : Scope} {p : Pattern}

/-- What is laid down stays so whatever is said of where it leads. -/
theorem Laid.forget {before after : Draft} {entries : List Nat} {next : Nat} {n : Bool}
    (h : Laid scope before after entries next n) (next' : Nat) :
    Laid scope before after [] next' false :=
  ⟨h.grows, by simp, h.states, h.behinds, h.loops, by simp⟩

namespace BuildPlan

theorem addSearchLoop_lays {layout : IdLayout} {start : Nat} (hid : scope.ids layout.loopBack) :
    Lays scope (plan.addSearchLoop layout start) start true := by
  intro before search after h hstart
  obtain ⟨split, first, hadd, hrun⟩ := Build.bind_eq_ok.mp h
  obtain ⟨skip, second, hadd', hrun⟩ := Build.bind_eq_ok.mp hrun
  obtain ⟨u, patched, hput, hpure⟩ := Build.bind_eq_ok.mp hrun
  obtain ⟨rfl, rfl⟩ := Build.pure_eq_ok.mp hpure
  have hskip : Lays scope (plan.add layout.loopBack (.unit .full search)) search false :=
    .add hid (by simp) (by simp [NfaState.successors]) trivial (by simp)
  have hlt : search < first.nodes.size := by
    obtain ⟨rfl, rfl⟩ := Build.add_eq_ok hadd
    simp
  have hput' : BuildPlan.put search (.split (BuildPlan.ordered false skip start)) second =
      .ok (u, after) := hput
  exact .star hadd (hskip _ _ _ hadd' hlt) hput' hid hstart

theorem addEntries_lays {layout : IdLayout} {count skipped lastAnchored lastUnanchored : Nat}
    {anchored unanchored anchored' unanchored' : List Nat} {before after : Draft}
    (h : plan.addEntries layout anchored unanchored lastAnchored lastUnanchored skipped count
      before = .ok ((anchored', unanchored'), after))
    (hids : ∀ i, skipped ≤ i → i < skipped + count →
      scope.ids (layout.anchored i) ∧ scope.ids (layout.unanchored i))
    (hanchored : lastAnchored < before.nodes.size) (hunanchored : lastUnanchored < before.nodes.size)
    (hin : ∀ s ∈ anchored ++ unanchored, s < before.nodes.size) (next : Nat) :
    Laid scope before after [] next false ∧ anchored'.length = anchored.length + count ∧
      ∀ s ∈ anchored' ++ unanchored', s < after.nodes.size := by
  induction count generalizing skipped lastAnchored lastUnanchored anchored unanchored before with
  | zero =>
    obtain ⟨he, rfl⟩ := Build.pure_eq_ok.mp h
    obtain ⟨rfl, rfl⟩ := Prod.mk.inj he
    exact ⟨(Laid.skip after next).forget next, rfl, hin⟩
  | succ count ih =>
    obtain ⟨a, first, hadd, h⟩ := Build.bind_eq_ok.mp h
    obtain ⟨u, second, hadd', hrest⟩ := Build.bind_eq_ok.mp h
    obtain ⟨hid, hid'⟩ := hids skipped (Nat.le_refl _) (by omega)
    have hskips : ∀ {id last : Nat}, scope.ids id →
        Lays scope (plan.add id (.unit .full last)) last false := fun hid =>
      .add hid (by simp) (by simp [NfaState.successors]) trivial (by simp)
    have hfirst := hskips hid _ _ _ hadd hanchored
    have hle := hfirst.grows.size_le
    have hsecond := hskips hid' _ _ _ hadd' (by omega)
    have hle' := hsecond.grows.size_le
    have ha := hfirst.entry_lt hanchored
    have hu := hsecond.entry_lt (by omega)
    obtain ⟨hrest, hlength, hin'⟩ := ih hrest (fun i hi hi' => hids i (by omega) (by omega))
      (by omega) (by omega) (by
        simp only [List.mem_append, List.mem_singleton] at hin ⊢
        rintro s ((hs | rfl) | hs | rfl)
        · have := hin s (.inl hs)
          omega
        · omega
        · have := hin s (.inr hs)
          omega
        · exact hu)
    refine ⟨((hfirst.forget next).alt (hsecond.forget next)).alt hrest, ?_, hin'⟩
    rw [hlength, List.length_append, List.length_singleton]
    omega

theorem searchLoop_lays {α : Type} {rest : Nat → Build α} {start : Nat} {second after : Draft}
    {a : α} (hid : scope.ids p.layout.loopBack)
    (h : (if p.flags.sticky then pure start >>= rest
      else plan.addSearchLoop p.layout start >>= rest) second = .ok (a, after)) :
    ∃ search looped,
      (start < second.nodes.size → Laid scope second looped [search] start true) ∧
        rest search looped = .ok (a, after) := by
  cases hs : p.flags.sticky with
  | true =>
    simp only [hs, if_true, pure_bind] at h
    exact ⟨start, second, fun _ => .skip second start, h⟩
  | false =>
    simp only [hs, Bool.false_eq_true, if_false] at h
    obtain ⟨search, looped, hloop, h⟩ := Build.bind_eq_ok.mp h
    exact ⟨search, looped, addSearchLoop_lays hid _ _ _ hloop, h⟩

/-- The accepting state and those of the pattern come first. What is laid down behind them leads to
the other entries. -/
theorem run_lays (hloop : scope.ids p.layout.loopBack)
    (hids : ∀ i, 1 ≤ i → i < 1 + p.context →
      scope.ids (p.layout.anchored i) ∧ scope.ids (p.layout.unanchored i))
    {nfa : Nfa} {after : Draft} (h : plan.run p {} = .ok (nfa, after)) :
    ∃ accept first second anchored unanchored,
      plan.add (p.layout.first + p.root.size) .accept {} = .ok (accept, first) ∧
      p.root.compile plan p.layout.first accept first = .ok (nfa.start, second) ∧
      nfa = ⟨after.nodes, nfa.start, anchored, unanchored, after.lookBehinds, after.lookAheads,
        after.counters, p.groupCount, plan.direction⟩ ∧
      (nfa.start < second.nodes.size → Laid scope second after [] accept false ∧
        (plan.direction = .forward → anchored.length = p.context + 1) ∧
        (plan.direction = .backward → anchored.length = 1) ∧
        ∀ s ∈ anchored ++ unanchored, s < after.nodes.size) := by
  obtain ⟨accept, first, hadd, h⟩ := Build.bind_eq_ok.mp h
  obtain ⟨start, second, hroot, h⟩ := Build.bind_eq_ok.mp h
  cases hd : plan.direction with
  | backward =>
    simp only [hd, pure_bind, Build.get_bind] at h
    obtain ⟨rfl, rfl⟩ := Build.pure_eq_ok.mp h
    exact ⟨accept, first, after, [start], [start], hadd, hroot, rfl, fun hstart =>
      ⟨(Laid.skip after accept).forget accept, by simp, by simp, by simpa using hstart⟩⟩
  | forward =>
    simp only [hd] at h
    obtain ⟨search, looped, hsearch, h⟩ := searchLoop_lays hloop h
    obtain ⟨⟨anchored, unanchored⟩, third, hentries, h⟩ := Build.bind_eq_ok.mp h
    simp only [Build.get_bind] at h
    obtain ⟨rfl, rfl⟩ := Build.pure_eq_ok.mp h
    refine ⟨accept, first, second, anchored, unanchored, hadd, hroot, rfl,
      fun (hstart : start < second.nodes.size) => ?_⟩
    have hlooped := hsearch hstart
    have hle := hlooped.grows.size_le
    have hlt := hlooped.entry_lt hstart
    obtain ⟨hrest, hlength, hin⟩ := addEntries_lays hentries hids (by omega) hlt
      (by simp; omega) accept
    exact ⟨(hlooped.forget accept).alt hrest, fun _ => hlength.trans (Nat.add_comm _ _), by simp,
      hin⟩

end BuildPlan

/-! ### The whole automaton -/

/-- Everything that an automaton refers to exists. One state accepts, counted loops are complete,
states belong to the pattern, and no circle can be passed without reading a unit. -/
structure Nfa.WellFormed (nfa : Nfa) (p : Pattern) : Prop where
  start_lt : nfa.start < nfa.size
  entries_lt : ∀ s ∈ nfa.anchored ++ nfa.unanchored, s < nfa.size
  successors_lt : ∀ s, ∀ t ∈ nfa.successors s, t < nfa.size
  indices : ∀ s, (nfa.state s).IndicesIn nfa.groupCount nfa.lookBehinds.length
    nfa.lookAheads.length nfa.counters
  existsUnique_accept : ∃! s, nfa.state s = .accept
  loops : ∀ s, nfa.CompleteAt s
  origins : ∀ n ∈ nfa.nodes, p.StateId n.origin
  lookBehinds : ∀ body ∈ nfa.lookBehinds, body.length ≤ nfa.context
  acyclic : ∀ a, ¬Relation.TransGen (fun a b => b ∈ nfa.epsilon a) a a

/-- An accepting state and what is laid down behind it make a well-formed automaton. -/
theorem Nfa.WellFormed.of_laid {nfa : Nfa} {accept : Nat} {first after : Draft}
    (hadd : plan.add (p.layout.first + p.root.size) .accept {} = .ok (accept, first))
    (hlaid : Laid p.scope first after [] accept false)
    (hnfa : nfa = ⟨after.nodes, nfa.start, nfa.anchored, nfa.unanchored, after.lookBehinds,
      after.lookAheads, after.counters, p.groupCount, plan.direction⟩)
    (hcontext : nfa.context = p.context) (hstart : nfa.start < nfa.size)
    (hentries : ∀ s ∈ nfa.anchored ++ nfa.unanchored, s < nfa.size) (hgrounded : nfa.Grounded) :
    nfa.WellFormed p := by
  obtain ⟨rfl, rfl⟩ := Build.add_eq_ok hadd
  have hnodes : nfa.nodes = after.nodes := congrArg Nfa.nodes hnfa
  have hbehinds : nfa.lookBehinds = after.lookBehinds := congrArg Nfa.lookBehinds hnfa
  have haheads : nfa.lookAheads = after.lookAheads := congrArg Nfa.lookAheads hnfa
  have hcounters : nfa.counters = after.counters := congrArg Nfa.counters hnfa
  have hgroups : nfa.groupCount = p.groupCount := congrArg Nfa.groupCount hnfa
  have hzero : after.nodes[0]? = some ⟨.accept, p.layout.first + p.root.size⟩ :=
    hlaid.grows.nodes 0 (by simp)
  have hbehind : ∀ s n, s ≠ 0 → after.nodes[s]? = some n → p.scope.Admits after n :=
    fun s n hs hn => hlaid.states s n (by simp; omega) hn
  have hstate : ∀ {s n}, after.nodes[s]? = some n → nfa.state s = n.state := by
    intro s n hn
    rw [Nfa.state, hnodes, hn]
  -- A state accepts, or it was laid down behind the one that does, or it does not exist.
  have hstates : ∀ s, (s = 0 ∧ nfa.state s = .accept) ∨
      (∃ n, nfa.state s = n.state ∧ p.scope.Admits after n) ∨ nfa.state s = .split [] := by
    intro s
    by_cases hs : s = 0
    · exact .inl ⟨hs, hs ▸ hstate hzero⟩
    cases hn : after.nodes[s]? with
    | some n => exact .inr (.inl ⟨n, hstate hn, hbehind s n hs hn⟩)
    | none => exact .inr (.inr (by rw [Nfa.state, hnodes, hn]))
  refine ⟨hstart, hentries, fun s t ht => ?_, fun s => ?_, ⟨0, hstate hzero, fun s hs => ?_⟩,
    fun s => ?_, fun n hn => ?_, fun body hbody => ?_, hgrounded.not_transGen⟩
  · rw [Nfa.successors] at ht
    rw [Nfa.size, hnodes]
    rcases hstates s with ⟨-, hs⟩ | ⟨n, hs, hadmits⟩ | hs
    · simp [hs, NfaState.successors] at ht
    · exact hadmits.successors t (hs ▸ ht)
    · simp [hs, NfaState.successors] at ht
  · rw [hgroups, hbehinds, haheads, hcounters]
    rcases hstates s with ⟨-, hs⟩ | ⟨n, hs, hadmits⟩ | hs
    · exact hs ▸ trivial
    · exact hs ▸ hadmits.indices
    · exact hs ▸ trivial
  · rcases hstates s with ⟨hzero, -⟩ | ⟨n, hs', hadmits⟩ | hs'
    · exact hzero
    · exact absurd (hs'.symm.trans hs) hadmits.ne_accept
    · cases hs.symm.trans hs'
  · by_cases hs : 1 ≤ s ∧ s < after.nodes.size
    · have hext : nfa.Extends after 1 :=
        ⟨fun t _ _ => by rw [hnodes], by rw [hbehinds], by rw [haheads]⟩
      exact hlaid.loops nfa hext s hs.1 hs.2
    · intro counter low high greedy body exit hloop
      by_cases hs' : s = 0
      · cases (hs' ▸ hstate hzero).symm.trans hloop
      · rw [Nfa.state_of_size_le (by rw [Nfa.size, hnodes]; omega)] at hloop
        cases hloop
  · obtain ⟨s, hs⟩ := Array.mem_iff_getElem?.mp (hnodes ▸ hn)
    by_cases hs' : s = 0
    · obtain rfl := Option.some.inj (hzero.symm.trans (hs' ▸ hs))
      exact p.stateId_of_node (Nat.le_refl _)
    · exact (hbehind s n hs' hs).origin
  · rw [hcontext]
    rcases hlaid.behinds body (hbehinds ▸ hbody) with hbody | hlength
    · cases hbody
    · exact hlength

/-- An automaton to the left skips no units: it has no look-behinds. -/
theorem Nfa.context_eq_zero_of_build {q : NumberedPattern} {config : Config} {nfa : Nfa}
    (h : Nfa.build q config .backward = .ok nfa) : q.context = 0 := by
  unfold Nfa.build at h
  split at h
  · cases h
  split at h
  · cases h
  split at h
  · cases h
  split at h
  · cases h
  · rename_i hcontext
    simpa using hcontext

/-- What is compiled for a term can be passed without a unit just if the term can match empty. -/
theorem Nfa.Installs.exists_epsilonWalk_iff {flags : Flags} {context : Nat}
    (hmulti : plan.multiline = flags.multiline) {t : Term} (hwf : t.WellFormed flags context)
    (href : t.hasBackReference = false) {id next entry : Nat} {before after : Draft} {nfa : Nfa}
    (h : nfa.Installs plan (fun next => t.compile plan id next) next before after entry)
    (counts : List Nat) :
    (∃ counts', nfa.EpsilonWalk (entry, counts) (next, counts')) ↔ t.nullable = true := by
  constructor
  · rintro ⟨counts', hwalk⟩
    by_contra hnull
    obtain ⟨c, f, hf, -⟩ := Term.exists_emits hmulti hwf href #[]
    rw [Bool.not_eq_true] at hnull
    exact h.not_epsilonWalk (hnull ▸ hf id next) counts counts' hwalk
  · intro hnull
    -- A scope in which nothing is refused: whatever id a state has, and all groups of the term.
    let scope : Scope := ⟨fun _ => True, t.groupSpan.elim 0 Prod.snd, context⟩
    have hspan : SpanWithin scope.groups t.groupSpan := fun r hr => by simp [scope, hr]
    have hlays : Lays scope (t.compile plan id next) next t.nullable :=
      t.compile_lays hmulti hwf href hspan id next fun _ _ => trivial
    obtain ⟨e, he, hwalk⟩ := (hlays _ _ _ h.run h.next_lt).passes hnull nfa h.states counts
    exact List.mem_singleton.mp he ▸ hwalk

/-- The automaton of a pattern that was read is well-formed, and what is compiled for a term of the
pattern can be passed without a unit just if the term can match empty. -/
theorem Nfa.wellFormed_of_build {s : Source} {q : NumberedPattern}
    (hparse : s.parse = .ok q.toPattern) {config : Config} {direction : Direction} {nfa : Nfa}
    (h : Nfa.build q config direction = .ok nfa) :
    let plan : BuildPlan := ⟨config, direction, q.flags.multiline⟩
    nfa.WellFormed q.toPattern ∧
      (∃ accept before after, nfa.state accept = .accept ∧ nfa.Installs plan
        (fun next => q.root.compile plan q.layout.first next) accept before after nfa.start) ∧
      ∀ t ∈ q.root.subterms, ∀ id next before after entry, ∀ nfa' : Nfa,
        nfa'.Installs plan (fun next => t.compile plan id next) next before after entry →
          ∀ counts, (∃ counts', nfa'.EpsilonWalk (entry, counts) (next, counts')) ↔
            t.nullable = true := by
  intro plan
  have hwf : q.root.WellFormed q.flags q.scope.context := (Source.wellFormed_of_parse hparse).1
  obtain ⟨href, last, hrun⟩ := Nfa.run_of_build h
  have hloop : q.scope.ids q.layout.loopBack := .inl rfl
  have hids : ∀ i, 1 ≤ i → i < 1 + q.context →
      q.scope.ids (q.layout.anchored i) ∧ q.scope.ids (q.layout.unanchored i) := fun i hi hi' =>
    ⟨.inr (.inl ⟨i, hi, by omega, .inl rfl⟩), .inr (.inl ⟨i, hi, by omega, .inr rfl⟩)⟩
  obtain ⟨accept, first, second, anchored, unanchored, hadd, hroot, hnfa, hentries⟩ :=
    BuildPlan.run_lays hloop hids hrun
  have hlt : accept < first.nodes.size := by
    obtain ⟨rfl, rfl⟩ := Build.add_eq_ok hadd
    simp
  have hlays : Lays q.scope (q.root.compile plan q.layout.first accept) accept q.root.nullable :=
    q.root.compile_lays rfl hwf href (Source.spanWithin_of_parse hparse) _ _
      fun i hi => q.stateId_of_node hi.le
  have hlaid := hlays _ _ _ hroot hlt
  have hstart := hlaid.entry_lt hlt
  obtain ⟨hrest, hforward, hbackward, hin⟩ := hentries hstart
  have hsize : nfa.size = last.nodes.size := congrArg Nfa.size hnfa
  have hanchored : nfa.anchored = anchored := congrArg Nfa.anchored hnfa
  have hunanchored : nfa.unanchored = unanchored := congrArg Nfa.unanchored hnfa
  have hwhole : nfa.Extends last 0 := by
    rw [hnfa]
    exact ⟨fun _ _ _ => rfl, List.prefix_refl _, List.prefix_refl _⟩
  have hext := hwhole.of_grows hrest.grows
  have hboth : nfa.Grounded ∧ nfa.context = q.context := by
    rw [Nfa.context, hanchored]
    cases direction with
    | forward =>
      rw [hforward rfl]
      exact ⟨(compiled_of_build hwf h).realizes.grounded, rfl⟩
    | backward =>
      rw [hbackward rfl]
      exact ⟨(compiledBack_of_build hwf h).grounded, (context_eq_zero_of_build h).symm⟩
  refine ⟨.of_laid hadd ((hlaid.forget accept).alt hrest) (hanchored ▸ hunanchored ▸ hnfa) hboth.2
    (hsize ▸ Nat.lt_of_lt_of_le hstart hrest.grows.size_le)
    (hanchored ▸ hunanchored ▸ hsize ▸ hin) hboth.1, ⟨accept, first, second, ?_, hroot, hlt,
      congrArg Nfa.direction hnfa, hext.mono (Nat.zero_le _)⟩,
    fun t ht id next before after entry nfa' hinstalls =>
      hinstalls.exists_epsilonWalk_iff rfl (hwf.of_mem_subterms ht)
        (Term.hasBackReference_of_mem_subterms (t := q.root) href ht)⟩
  obtain ⟨-, rfl, -, hnode, -⟩ := Build.grows_of_add hadd
  exact (hext.of_grows hlaid.grows).state (Nat.zero_le _) hnode

/-- `(?:a*)*(?<=b)c{3}` has a loop whose body can match empty, a look-behind and a loop that
counts. -/
theorem Nfa.wellFormed_of_build_counted :
    ∃ (p : Pattern) (nfa : Nfa) (accept : Nat),
      Source.parse ⟨"(?:a*)*(?<=b)c{3}", {}, {}⟩ = .ok p ∧
      Nfa.build ⟨p, true⟩ { maxUnroll := 2 } .forward = .ok nfa ∧
      nfa.counters = 1 ∧ nfa.lookBehinds.length = 1 ∧ nfa.WellFormed p ∧
      nfa.state accept = .accept ∧
      ∀ counts counts', ¬nfa.EpsilonWalk (nfa.start, counts) (accept, counts') := by
  let star : Quantifier := ⟨0, none, true⟩
  let a : Term := .group none (some star) (.one (.cons (.unit (.single 97)) .nil))
  let p : Pattern :=
    { body := .one (.cons (.group none (some star) (.one (.cons a .nil)))
        (.cons (.look true false (.one (.cons (.unit (.single 98)) .nil)))
          (.cons (.group none (some ⟨3, some 3, true⟩) (.one (.cons (.unit (.single 99)) .nil)))
            .nil)))
      flags := {}
      groupCount := 1
      groupNames := []
      context := 1 }
  have hparse : Source.parse ⟨"(?:a*)*(?<=b)c{3}", {}, {}⟩ = .ok p := by cbv
  have hbuild : ((Nfa.build ⟨p, true⟩ { maxUnroll := 2 } .forward).toOption.any fun nfa =>
      nfa.counters = 1 && nfa.lookBehinds.length = 1) = true := by cbv
  obtain ⟨nfa, hbuild, htest⟩ := exists_eq_ok_of_any hbuild
  obtain ⟨hcounters, hbehinds⟩ : nfa.counters = 1 ∧ nfa.lookBehinds.length = 1 := by
    simpa using htest
  obtain ⟨hwf, ⟨accept, before, after, haccept, hroot⟩, hterms⟩ :=
    wellFormed_of_build (q := ⟨p, true⟩) hparse hbuild
  have hnull : p.root.nullable = false := by decide
  have hwalk := hterms p.root List.mem_cons_self _ _ _ _ _ nfa hroot
  refine ⟨p, nfa, accept, hparse, hbuild, hcounters, hbehinds, hwf, haccept,
    fun counts counts' hpath => ?_⟩
  exact Bool.false_ne_true (hnull.symm.trans ((hwalk counts).mp ⟨counts', hpath⟩))

end UnitRegex
