import UnitRegex.Proofs.Alphabet.Membership
import UnitRegex.Proofs.Automaton.EmitLoops
import UnitRegex.Proofs.Pattern.WellFormed

/-!
Compilation of terms, branches and choices. Guards stand for the assertions of the pattern, and the
fragment of a term behaves like the term.
-/

namespace UnitRegex

theorem getElem?_of_prefix {α : Type} {l l' : List α} (h : l <+: l') {i : Nat} {a : α}
    (hi : l[i]? = some a) : l'[i]? = some a := by
  obtain ⟨tail, rfl⟩ := h
  obtain ⟨hlt, -⟩ := List.getElem?_eq_some_iff.mp hi
  rwa [List.getElem?_append_left hlt]

theorem Bodies.add_spec {α : Type} [Ord α] [Std.TransOrd α] [Std.LawfulEqOrd α] (a : α)
    (b : Bodies α) : (b.add a).2.toList[(b.add a).1]? = some a ∧ b.toList <+: (b.add a).2.toList ∧
      ∀ x ∈ (b.add a).2.toList, x ∈ b.toList ∨ x = a := by
  refine ⟨b.getElem?_add a, ?_⟩
  rcases b.toList_add a with ⟨-, h⟩ | ⟨-, h⟩
  · rw [h]
    exact ⟨List.prefix_refl _, fun x hx => .inl hx⟩
  · simp [h]

variable {context : Nat} {d : Direction} {text : Text} {plan : BuildPlan} {origin next : Nat}

/-- A guard whose body may be new to the draft. -/
theorem Emitted.guard {before noted after : Draft} {guard : Guard} {p : Nat → Bool} {e : Nat}
    (hgrows : before.Grows noted) (hnodes : noted.nodes = before.nodes)
    (hcounters : noted.counters = before.counters)
    (hsound : before.Sound context d → noted.Sound context d)
    (hguard : (NfaState.assert guard next).GuardIn d noted.lookAheads.length)
    (hadd : plan.add origin (.assert guard next) noted = .ok (e, after))
    (hholds : ∀ nfa : Nfa, nfa.Extends noted before.nodes.size →
      ∀ cursor ≤ text.size, nfa.holds text cursor guard = p cursor) :
    Emitted context d text before after [e] next (.check p) true := by
  obtain ⟨hgrows', rfl, hsize, hnode, -, -, hcounters'⟩ := Build.grows_of_add hadd
  rw [hnodes] at hsize hnode ⊢
  refine ⟨hgrows.trans hgrows', fun hs => (hsound hs).add hadd hguard, by simp; omega,
    fun nfa hd hext => ?_⟩
  have hstate := hext.state (Nat.le_refl _) hnode
  have hfragment : Fragment nfa text (.check p) true before.counters before.counters
      before.nodes.size (before.nodes.size + 1) [before.nodes.size] next :=
    .of_guard hstate (hholds nfa (hext.of_grows hgrows'))
  rwa [hsize, hcounters', hcounters]

namespace Emits

theorem refuse {c : Construct} {f : Behavior} {n : Bool} :
    Emits context d text (BuildPlan.refuse c) next f n := by
  intro before e after h
  cases h

theorem behind {sets : List CharSet} {negated : Bool} {p : Nat → Bool} (hd : d = .forward)
    (hlength : sets.length ≤ context)
    (hp : ∀ cursor ≤ text.size,
      ((sets.length ≤ cursor && text.matchesAt (cursor - sets.length) sets) != negated) =
        p cursor) :
    Emits context d text (do
      let body ← BuildPlan.addLookBehind sets
      plan.add origin (.assert (.behind body negated) next)) next (.check p) true := by
  intro before e after h _
  obtain ⟨body, noted, hnote, hadd⟩ := Build.bind_eq_ok.mp h
  obtain ⟨hget, hprefix, hmem⟩ := before.behinds.add_spec sets
  obtain ⟨rfl, rfl⟩ : body = (before.behinds.add sets).1 ∧
      noted = { before with behinds := (before.behinds.add sets).2 } := by
    cases hnote
    exact ⟨rfl, rfl⟩
  have hgrows : before.Grows
      { before with behinds := (before.behinds.add sets).2 } :=
    ⟨Nat.le_refl _, fun _ _ => rfl, hprefix, List.prefix_refl _, Nat.le_refl _⟩
  have hguard : (NfaState.assert (.behind (before.behinds.add sets).1 negated)
      next).GuardIn d before.lookAheads.length := hd
  refine Emitted.guard hgrows rfl rfl (fun hs => ⟨fun b hb => ?_, hs.lookAheads, hs.guards⟩)
    hguard hadd fun nfa hext cursor hcursor => ?_
  · rcases hmem b hb with hb | rfl
    · exact hs.lookBehinds b hb
    · exact hlength
  · have hbody : nfa.lookBehinds[(before.behinds.add sets).1]? = some sets :=
      getElem?_of_prefix hext.lookBehinds hget
    simp only [Nfa.holds, hbody, Option.getD_some]
    exact hp cursor hcursor

theorem ahead {branches : List (List CharSet)} {negated : Bool} {p : Nat → Bool}
    (hd : d = .forward) (hlength : branches.length ≤ BuildPlan.maxLookAheadBranches)
    (hp : ∀ cursor ≤ text.size, (branches.any (text.matchesAt cursor) != negated) = p cursor) :
    Emits context d text (do
      let body ← BuildPlan.addLookAhead branches
      plan.add origin (.assert (.ahead body negated) next)) next (.check p) true := by
  intro before e after h _
  obtain ⟨body, noted, hnote, hadd⟩ := Build.bind_eq_ok.mp h
  obtain ⟨hget, hprefix, hmem⟩ := before.aheads.add_spec branches
  obtain ⟨rfl, rfl⟩ : body = (before.aheads.add branches).1 ∧
      noted = { before with aheads := (before.aheads.add branches).2 } := by
    cases hnote
    exact ⟨rfl, rfl⟩
  have hgrows : before.Grows
      { before with aheads := (before.aheads.add branches).2 } :=
    ⟨Nat.le_refl _, fun _ _ => rfl, List.prefix_refl _, hprefix, Nat.le_refl _⟩
  have hguard : (NfaState.assert (.ahead (before.aheads.add branches).1 negated)
      next).GuardIn d (before.aheads.add branches).2.toList.length :=
    ⟨hd, (List.getElem?_eq_some_iff.mp hget).1⟩
  refine Emitted.guard hgrows rfl rfl (fun hs => ⟨hs.lookBehinds, fun b hb => ?_, fun n hn =>
    (hs.guards n hn).mono hprefix.length_le⟩) hguard hadd fun nfa hext cursor hcursor => ?_
  · rcases hmem b hb with hb | rfl
    · exact hs.lookAheads b hb
    · exact hlength
  · have hbody : nfa.lookAheads[(before.aheads.add branches).1]? = some branches :=
      getElem?_of_prefix hext.lookAheads hget
    simp only [Nfa.holds, hbody, Option.getD_some]
    exact hp cursor hcursor

/-- A multiline caret looks for a unit in front that ends no line. -/
theorem anchor {kind : Anchor} {flags : Flags} (hmulti : plan.multiline = flags.multiline)
    (hcontext : kind = .caret → flags.multiline = true → 1 ≤ context) :
    Emits context plan.direction text (plan.anchor origin next kind) next
      (.check fun cursor => kind.holds flags.multiline text cursor) true := by
  have hguard : ∀ guard : Guard,
      (∀ bodies, (NfaState.assert guard next).GuardIn plan.direction bodies) →
      (∀ (nfa : Nfa) (cursor : Nat),
        nfa.holds text cursor guard = kind.holds flags.multiline text cursor) →
      Emits context plan.direction text (plan.add origin (.assert guard next)) next
        (.check fun cursor => kind.holds flags.multiline text cursor) true :=
    fun guard hin h => .add hin fun nfa s clo _ hs =>
      Fragment.of_guard hs fun cursor _ => h nfa cursor
  cases kind with
  | caret =>
    cases hm : flags.multiline with
    | false =>
      rw [hm] at hguard
      simp only [BuildPlan.anchor, hmulti, hm, Bool.false_eq_true, if_false]
      exact hguard .caret (fun _ => trivial) fun nfa cursor => by simp [Nfa.holds, Anchor.holds]
    | true =>
      simp only [BuildPlan.anchor, hmulti, hm, if_true]
      split
      · exact refuse
      · rename_i hd
        refine behind hd (hcontext rfl hm) fun cursor hcursor => ?_
        simp only [List.length_singleton, Text.matchesAt, CharSet.contains_complement,
          CharSet.contains_lineTerminators, Bool.and_true, Anchor.holds, Bool.true_and]
        by_cases hzero : cursor = 0
        · simp [hzero]
        · have hlt : cursor - 1 < text.size := by omega
          have hpos : 1 ≤ cursor := by omega
          simp [hzero, hpos, Array.getElem?_eq_getElem hlt]
  | dollar =>
    cases hm : flags.multiline with
    | false =>
      rw [hm] at hguard
      simp only [BuildPlan.anchor, hmulti, hm, Bool.false_eq_true, if_false]
      exact hguard .dollar (fun _ => trivial) fun nfa cursor => by simp [Nfa.holds, Anchor.holds]
    | true =>
      simp only [BuildPlan.anchor, hmulti, hm, if_true]
      exact refuse
  | wordBoundary | notWordBoundary => exact refuse

theorem lookBehind {flags : Flags} {negated : Bool} {body : Choice}
    (hlength : ∀ sets, body.soleSequence? = some sets → sets.length ≤ context) :
    Emits context plan.direction text (plan.lookBehind origin next negated body) next
      ((Term.look true negated body).outcomes flags text plan.direction) true := by
  unfold BuildPlan.lookBehind
  split
  · exact refuse
  · rename_i hd
    split
    · exact refuse
    · rename_i sets hsets
      have hplain : body.plain? = some [sets] := by
        unfold Choice.soleSequence? at hsets
        split at hsets
        · rename_i only honly
          rw [honly, Option.some.inj hsets]
        · simp at hsets
      rw [Term.look_outcomes_of_plain? flags text _ true negated body hplain]
      refine behind hd (hlength sets hsets) fun cursor _ => ?_
      simp only [List.any_cons, List.any_nil, Bool.or_false, Text.sequenceEnd?, Direction.ofLook,
        if_true]
      split <;> rename_i h <;> simp [h]

theorem lookAhead {flags : Flags} {negated : Bool} {body : Choice} :
    Emits context plan.direction text (plan.lookAhead origin next negated body) next
      ((Term.look false negated body).outcomes flags text plan.direction) true := by
  unfold BuildPlan.lookAhead
  split
  · exact refuse
  · rename_i hd
    split
    · exact refuse
    · rename_i branches hbranches
      split
      · exact refuse
      · rename_i hcount
        split
        · exact refuse
        · rw [Term.look_outcomes_of_plain? flags text _ false negated body hbranches]
          refine ahead hd (by omega) fun cursor _ => ?_
          congr 2
          funext sets
          simp only [Text.sequenceEnd?, Direction.ofLook, Bool.false_eq_true, if_false]
          split <;> rename_i h <;> simp [h]

end Emits

mutual

/-- The fragment of a term behaves like the term. -/
theorem Term.compile_emits {flags : Flags} (hmulti : plan.multiline = flags.multiline) (t : Term)
    (hwf : t.WellFormed flags context) (href : t.hasBackReference = false)
    (hcaptures : plan.captures = true ∨ t.groupSpan = none) (node next : Nat) :
    Emits context plan.direction text (t.compile plan node next) next
      (t.outcomes flags text plan.direction) t.nullable := by
  match t with
  | .unit set =>
    refine Emits.add (fun _ => trivial) fun nfa s clo hd hs => ?_
    have hfragment : Fragment nfa text (.unit text nfa.direction set) false clo clo s (s + 1) [s]
        next := .of_unit hs
    rwa [hd] at hfragment
  | .anchor kind => exact Emits.anchor hmulti hwf
  | .backReference group => simp [Term.hasBackReference] at href
  | .look true negated body => exact Emits.lookBehind fun sets hs => hwf.2 rfl sets hs
  | .look false negated body => exact Emits.lookAhead
  | .group capture repeats body =>
    obtain ⟨hbody, hspan, hq⟩ := hwf
    have hparts : plan.captures = true ∨ capture = none ∧ body.groupSpan = none := by
      refine Or.imp_right (fun h => ?_) hcaptures
      cases capture with
      | none => exact ⟨rfl, h⟩
      | some g =>
        simp only [Term.groupSpan] at h
        cases hb : body.groupSpan <;> simp [hb, spanHull] at h
    have hpass : ∀ next, Emits context plan.direction text
        (plan.groupPass node capture (fun exit => body.compile plan (node + 1) exit) next) next
        (.pass plan.direction capture none (body.outcomes flags text plan.direction))
        body.nullable := by
      intro next
      refine Emits.groupPass (hparts.imp_right And.left) (fun exit => ?_) fun g hg => ?_
      · exact body.compile_emits hmulti hbody href (hparts.imp_right And.right) (node + 1) exit
      · exact body.outcomes_ignore flags text plan.direction (hspan g hg) href
    cases repeats with
    | none => exact hpass next
    | some q =>
      refine Emits.repetition hcaptures (fun next => ?_) (fun hnull => ?_) (hq q rfl)
      · rw [← Behavior.clear_andThen_pass]
        exact Emits.iteration hpass
      · exact (body.outcomes_consume flags text plan.direction hnull).pass capture _

theorem Branch.compile_emits {flags : Flags} (hmulti : plan.multiline = flags.multiline)
    (b : Branch) (hwf : b.WellFormed flags context) (href : b.hasBackReference = false)
    (hcaptures : plan.captures = true ∨ b.groupSpan = none) (node next : Nat) :
    Emits context plan.direction text (b.compile plan node next) next
      (b.outcomes flags text plan.direction) b.nullable := by
  match b with
  | .nil => exact Emits.skip
  | .cons t rest =>
    obtain ⟨htref, hrref⟩ := Bool.or_eq_false_iff.mp href
    have hparts : plan.captures = true ∨ t.groupSpan = none ∧ rest.groupSpan = none := by
      refine Or.imp_right (fun h => ?_) hcaptures
      simp only [Branch.groupSpan] at h
      cases ht : t.groupSpan <;> cases hr : rest.groupSpan <;> simp [ht, hr, spanHull] at h ⊢
    have ht := fun node next => t.compile_emits hmulti hwf.1 htref (hparts.imp_right And.left)
      node next
    have hrest := fun node next => rest.compile_emits hmulti hwf.2 hrref
      (hparts.imp_right And.right) node next
    cases hd : plan.direction with
    | forward =>
      simp only [hd] at ht hrest
      simp only [Branch.compile, hd, Branch.outcomes, Branch.nullable]
      exact Emits.bind (hrest _ next) fun e => ht node e
    | backward =>
      simp only [hd] at ht hrest
      simp only [Branch.compile, hd, Branch.outcomes, Branch.nullable]
      rw [Bool.and_comm]
      exact Emits.bind (ht node next) fun e => hrest _ e

theorem Choice.compile_emits {flags : Flags} (hmulti : plan.multiline = flags.multiline)
    (c : Choice) (hwf : c.WellFormed flags context) (href : c.hasBackReference = false)
    (hcaptures : plan.captures = true ∨ c.groupSpan = none) (node next : Nat) :
    EmitsAll context plan.direction text (c.compile plan node next) next
      (c.outcomes flags text plan.direction) c.nullable := by
  match c with
  | .one b =>
    intro before entries after h hnext
    obtain ⟨entry, middle, hb, hpure⟩ := Build.bind_eq_ok.mp h
    obtain ⟨rfl, rfl⟩ := Build.pure_eq_ok.mp hpure
    exact b.compile_emits hmulti hwf href hcaptures (node + 1) next _ _ _ hb hnext
  | .more b rest =>
    obtain ⟨hbref, hrref⟩ := Bool.or_eq_false_iff.mp href
    have hparts : plan.captures = true ∨ b.groupSpan = none ∧ rest.groupSpan = none := by
      refine Or.imp_right (fun h => ?_) hcaptures
      simp only [Choice.groupSpan] at h
      cases hb : b.groupSpan <;> cases hr : rest.groupSpan <;> simp [hb, hr, spanHull] at h ⊢
    intro before entries after h hnext
    obtain ⟨entry, middle, hb, h'⟩ := Build.bind_eq_ok.mp h
    obtain ⟨others, last, hrest, hpure⟩ := Build.bind_eq_ok.mp h'
    obtain ⟨rfl, rfl⟩ := Build.pure_eq_ok.mp hpure
    have hb' := b.compile_emits hmulti hwf.1 hbref (hparts.imp_right And.left) (node + 1) next
      _ _ _ hb hnext
    have hrest' := rest.compile_emits hmulti hwf.2 hrref (hparts.imp_right And.right)
      (node + b.size + 1) next _ _ _ hrest (by have := hb'.grows.size_le; omega)
    exact hb'.alt hrest'

end

end UnitRegex
