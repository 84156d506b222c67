import UnitRegex.Proofs.Automaton.LaidLoops
import UnitRegex.Proofs.Pattern.Captures

/-!
What the compilation of terms lays down. The nodes of a term have the ids from that of the term on,
and the groups in it are among those of the pattern.
-/

namespace UnitRegex

/-- A range that ends within the groups of a pattern. -/
def SpanWithin (groups : Nat) (span : Option (Nat × Nat)) : Prop :=
  ∀ r, span = some r → r.2 ≤ groups

theorem SpanWithin.of_spanHull {groups : Nat} {a b : Option (Nat × Nat)}
    (h : SpanWithin groups (spanHull a b)) : SpanWithin groups a ∧ SpanWithin groups b := by
  match a, b with
  | none, b => exact ⟨by simp [SpanWithin], h⟩
  | some a, none => exact ⟨h, by simp [SpanWithin]⟩
  | some a, some b =>
    have hmax := Nat.max_le.mp (h _ rfl)
    exact ⟨fun r hr => Option.some.inj hr ▸ hmax.1, fun r hr => Option.some.inj hr ▸ hmax.2⟩

variable {scope : Scope} {plan : BuildPlan} {origin next : Nat}

namespace Lays

/-! ### Guards -/

theorem behind {sets : List CharSet} {negated : Bool} (hlength : sets.length ≤ scope.context)
    (horigin : scope.ids origin) :
    Lays scope (do
      let body ← BuildPlan.addLookBehind sets
      plan.add origin (.assert (.behind body negated) next)) next true := by
  intro before e after h hnext
  obtain ⟨body, noted, hnote, hadd⟩ := Build.bind_eq_ok.mp h
  obtain ⟨hget, hprefix, hmem⟩ := before.behinds.add_spec sets
  cases hnote
  have hgrows : before.Grows
      { before with behinds := (before.behinds.add sets).2 } :=
    ⟨Nat.le_refl _, fun _ _ => rfl, hprefix, List.prefix_refl _, Nat.le_refl _⟩
  refine Laid.of_add hgrows rfl
    (fun b hb => (hmem b hb).imp_right fun (hnew : b = sets) => hnew ▸ hlength) hadd horigin
    (by simp) (by simpa [NfaState.successors] using hnext) (List.getElem?_eq_some_iff.mp hget).1
    (by simp) ?_
  exact fun _ nfa s hs counts => ⟨counts, by simp [Nfa.epsilon, hs]⟩

theorem ahead {branches : List (List CharSet)} {negated : Bool} (horigin : scope.ids origin) :
    Lays scope (do
      let body ← BuildPlan.addLookAhead branches
      plan.add origin (.assert (.ahead body negated) next)) next true := by
  intro before e after h hnext
  obtain ⟨body, noted, hnote, hadd⟩ := Build.bind_eq_ok.mp h
  obtain ⟨hget, hprefix, -⟩ := before.aheads.add_spec branches
  cases hnote
  have hgrows : before.Grows
      { before with aheads := (before.aheads.add branches).2 } :=
    ⟨Nat.le_refl _, fun _ _ => rfl, List.prefix_refl _, hprefix, Nat.le_refl _⟩
  refine Laid.of_add hgrows rfl (fun b hb => .inl hb) hadd horigin (by simp)
    (by simpa [NfaState.successors] using hnext) (List.getElem?_eq_some_iff.mp hget).1 (by simp) ?_
  exact fun _ nfa s hs counts => ⟨counts, by simp [Nfa.epsilon, hs]⟩

/-- A guard of the ends of the input. -/
theorem assert {guard : Guard}
    (hindices : (NfaState.assert guard next).IndicesIn scope.groups 0 0 0)
    (horigin : scope.ids origin) : Lays scope (plan.add origin (.assert guard next)) next true :=
  add horigin (by simp) (by simp [NfaState.successors]) hindices fun _ nfa s hs counts =>
    ⟨counts, by simp [Nfa.epsilon, hs]⟩

theorem anchor {kind : Anchor}
    (hcontext : kind = .caret → plan.multiline = true → 1 ≤ scope.context)
    (horigin : scope.ids origin) : Lays scope (plan.anchor origin next kind) next true := by
  cases kind with
  | caret =>
    simp only [BuildPlan.anchor]
    split
    · rename_i hmulti
      split
      · exact refuse
      · exact behind (hcontext rfl hmulti) horigin
    · exact assert (by exact trivial) horigin
  | dollar =>
    simp only [BuildPlan.anchor]
    split
    · exact refuse
    · exact assert (by exact trivial) horigin
  | wordBoundary | notWordBoundary => exact refuse

theorem lookBehind {negated : Bool} {body : Choice}
    (hlength : ∀ sets, body.soleSequence? = some sets → sets.length ≤ scope.context)
    (horigin : scope.ids origin) :
    Lays scope (plan.lookBehind origin next negated body) next true := by
  unfold BuildPlan.lookBehind
  split
  · exact refuse
  · split
    · exact refuse
    · rename_i sets hsets
      exact behind (hlength sets hsets) horigin

theorem lookAhead {negated : Bool} {body : Choice} (horigin : scope.ids origin) :
    Lays scope (plan.lookAhead origin next negated body) next true := by
  unfold BuildPlan.lookAhead
  split
  · exact refuse
  · split
    · exact refuse
    · split
      · exact refuse
      · split
        · exact refuse
        · exact ahead horigin

end Lays

/-! ### Terms -/

mutual

theorem Term.compile_lays {flags : Flags} (hmulti : plan.multiline = flags.multiline) (t : Term)
    (hwf : t.WellFormed flags scope.context) (href : t.hasBackReference = false)
    (hspan : SpanWithin scope.groups t.groupSpan) (node next : Nat)
    (hids : ∀ i < t.size, scope.ids (node + i)) :
    Lays scope (t.compile plan node next) next t.nullable := by
  match t with
  | .unit set =>
    exact .add (hids 0 Nat.one_pos) (by simp) (by simp [NfaState.successors]) trivial
      (by simp [Term.nullable])
  | .anchor kind => exact .anchor (hmulti ▸ hwf) (hids 0 Nat.one_pos)
  | .backReference _ => exact .refuse
  | .look true negated body =>
    exact .lookBehind (fun sets hs => hwf.2 rfl sets hs) (hids 0 (Nat.succ_pos _))
  | .look false negated body => exact .lookAhead (hids 0 (Nat.succ_pos _))
  | .group capture repeats body =>
    have hhull := hspan
    rw [Term.groupSpan_group] at hhull
    obtain ⟨hown, hinside⟩ := hhull.of_spanHull
    have hpass : ∀ next, Lays scope (plan.pass node capture body next) next body.nullable := by
      intro next
      refine .groupPass (fun exit => ?_) (hids 0 (Nat.succ_pos _)) fun g hg => ?_
      · refine body.compile_lays hmulti hwf.1 href hinside (node + 1) exit fun i hi => ?_
        rw [Nat.add_assoc, Nat.add_comm 1]
        exact hids (i + 1) (Nat.succ_lt_succ hi)
      · exact hown (g, g + 1) (by rw [hg, Option.map_some])
    cases repeats with
    | none => exact hpass next
    | some q =>
      obtain ⟨c, f, hf, -⟩ := plan.exists_emits_iteration hmulti hwf href #[]
      refine .repetition (fun next => .iteration hpass (hids 0 (Nat.succ_pos _)) ?_) (hf node)
        (hids 0 (Nat.succ_pos _))
      intro span hclear
      split at hclear
      · exact hspan span hclear
      · cases hclear

theorem Branch.compile_lays {flags : Flags} (hmulti : plan.multiline = flags.multiline) (b : Branch)
    (hwf : b.WellFormed flags scope.context) (href : b.hasBackReference = false)
    (hspan : SpanWithin scope.groups b.groupSpan) (node next : Nat)
    (hids : ∀ i < b.size, scope.ids (node + i)) :
    Lays scope (b.compile plan node next) next b.nullable := by
  match b with
  | .nil => exact .skip
  | .cons t rest =>
    obtain ⟨htref, hrref⟩ := Bool.or_eq_false_iff.mp href
    obtain ⟨htspan, hrspan⟩ := SpanWithin.of_spanHull (by rwa [Branch.groupSpan] at hspan)
    have hsize : (Branch.cons t rest).size = t.size + rest.size := rfl
    have ht := fun next => t.compile_lays hmulti hwf.1 htref htspan node next
      fun i hi => hids i (by omega)
    have hrest := fun next => rest.compile_lays hmulti hwf.2 hrref hrspan (node + t.size) next
      fun i hi => by
        rw [Nat.add_assoc]
        exact hids (t.size + i) (by omega)
    simp only [Branch.compile, Branch.nullable]
    cases plan.direction with
    | forward => exact .bind (hrest next) ht
    | backward =>
      rw [Bool.and_comm]
      exact .bind (ht next) hrest

theorem Choice.compile_lays {flags : Flags} (hmulti : plan.multiline = flags.multiline) (c : Choice)
    (hwf : c.WellFormed flags scope.context) (href : c.hasBackReference = false)
    (hspan : SpanWithin scope.groups c.groupSpan) (node next : Nat)
    (hids : ∀ i < c.size, scope.ids (node + i)) :
    LaysAll scope (c.compile plan node next) next c.nullable := by
  match c with
  | .one b =>
    intro before entries after h hnext
    obtain ⟨entry, middle, hb, hpure⟩ := Build.bind_eq_ok.mp h
    obtain ⟨rfl, rfl⟩ := Build.pure_eq_ok.mp hpure
    refine b.compile_lays hmulti hwf href hspan (node + 1) next (fun i hi => ?_) _ _ _ hb hnext
    rw [Nat.add_assoc, Nat.add_comm 1]
    exact hids (i + 1) (Nat.succ_lt_succ hi)
  | .more b rest =>
    obtain ⟨hbref, hrref⟩ := Bool.or_eq_false_iff.mp href
    obtain ⟨hbspan, hrspan⟩ := SpanWithin.of_spanHull (by rwa [Choice.groupSpan] at hspan)
    have hsize : (Choice.more b rest).size = b.size + 1 + rest.size := rfl
    intro before entries after h hnext
    obtain ⟨entry, middle, hb, h'⟩ := Build.bind_eq_ok.mp h
    obtain ⟨others, last, hrest, hpure⟩ := Build.bind_eq_ok.mp h'
    obtain ⟨rfl, rfl⟩ := Build.pure_eq_ok.mp hpure
    have hb' := b.compile_lays hmulti hwf.1 hbref hbspan (node + 1) next (fun i hi => by
      rw [Nat.add_assoc, Nat.add_comm 1]
      exact hids (i + 1) (by omega)) _ _ _ hb hnext
    have hle := hb'.grows.size_le
    exact hb'.alt (rest.compile_lays hmulti hwf.2 hrref hrspan (node + b.size + 1) next
      (fun i hi => by
        rw [Nat.add_assoc node, Nat.add_assoc node]
        exact hids (b.size + 1 + i) (by omega)) _ _ _ hrest (by omega))

end

end UnitRegex
