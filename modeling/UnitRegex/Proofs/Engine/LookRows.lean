import UnitRegex.Proofs.Automaton.Drafts
import UnitRegex.Proofs.Engine.Substring

/-!
Rows of look-aheads. Each of them asks for a text, and the automaton of the row has a body for every
text, so as many bodies as there are different texts.
-/

namespace UnitRegex

open Reader

/-- A look-ahead that asks for a text. -/
def lookChars (text : List Char) : List Char := '(' :: '?' :: '=' :: (escaped text ++ [')'])

def lookRow (texts : List (List Char)) : List Char := texts.flatMap lookChars

/-- The term that a look-ahead is read as. -/
def Flags.lookTerm (f : Flags) (text : List Char) : Term :=
  .look false false (.one (Branch.ofList (text.map fun c => f.literalTerm c.toNat)))

/-! ### Reading a row -/

section

variable {s : Setting} {cursor : Cursor}

theorem gives_readGroup (depth : Nat) (text rest : List Char) :
    Gives s (readGroup (depth + 1)) { cursor with rest := lookChars text ++ rest }
      (s.flags.lookTerm text) { cursor with rest := rest } := by
  have htail : Closes (')' :: rest) := fun d more h => (List.cons.inj h).1.symm
  have hchoice : Gives s (readChoice (readGroup depth))
      { cursor with rest := escaped text ++ ')' :: rest } _ { cursor with rest := ')' :: rest } :=
    gives_readChoice htail rfl
  have hbody : Gives s (readGroupBody (readChoice (readGroup depth)))
      { cursor with rest := '?' :: '=' :: (escaped text ++ ')' :: rest) } (s.flags.lookTerm text)
      { cursor with rest := ')' :: rest } := .get (.moveTo (hchoice.bind (.pure _)))
  have hchars : lookChars text ++ rest = '(' :: '?' :: '=' :: (escaped text ++ ')' :: rest) := by
    simp [lookChars]
  rw [hchars]
  exact .get (Gives.bind rfl (hbody.bind rfl))

theorem gives_readTerm_row (depth : Nat) (text : List Char) (texts : List (List Char)) :
    Gives s (readTerm (readGroup (depth + 1))) { cursor with rest := lookRow (text :: texts) }
      (s.flags.lookTerm text) { cursor with rest := lookRow texts } := by
  have hgroup : Gives s (readGroup (depth + 1)) { cursor with rest := lookRow (text :: texts) }
      (s.flags.lookTerm text) { cursor with rest := lookRow texts } := gives_readGroup depth text _
  have hquantifier : Gives s readQuantifier { cursor with rest := lookRow texts } none
      { cursor with rest := lookRow texts } := by
    cases texts <;> rfl
  have hatom : Gives s (readAtom (readGroup (depth + 1)))
      { cursor with rest := lookRow (text :: texts) } _ _ := .read (.get hgroup)
  exact .get (hatom.bind (hquantifier.bind (.pure _)))

theorem gives_readTerms_row (depth : Nat) (texts : List (List Char)) (terms : List Term)
    {ahead : List Char} (hahead : texts.length ≤ ahead.length) :
    Gives s (readTerms (readGroup (depth + 1)) ahead terms) { cursor with rest := lookRow texts }
      (Branch.ofList (terms.reverse ++ texts.map s.flags.lookTerm)) { cursor with rest := [] } := by
  induction texts generalizing terms ahead with
  | nil =>
    rw [List.map_nil, List.append_nil]
    cases ahead with
    | nil => exact .pure _
    | cons d ahead => exact .get (.pure _)
  | cons text texts ih =>
    obtain ⟨d, ahead, rfl⟩ := List.exists_cons_of_length_pos (Nat.zero_lt_of_lt hahead)
    have hrest := ih (s.flags.lookTerm text :: terms) (Nat.le_of_succ_le_succ hahead)
    rw [List.reverse_cons, List.append_assoc] at hrest
    exact .get ((gives_readTerm_row depth text texts).bind hrest)

theorem length_le_length_lookRow (texts : List (List Char)) :
    texts.length ≤ (lookRow texts).length := by
  induction texts with
  | nil => exact Nat.le_refl _
  | cons text texts ih =>
    have hlength : (lookRow (text :: texts)).length =
        (lookChars text).length + (lookRow texts).length := List.length_append
    rw [hlength, List.length_cons, lookChars, List.length_cons]
    omega

theorem gives_readPattern_row (cursor : Cursor) (texts : List (List Char)) :
    Gives s readPattern { cursor with rest := lookRow texts }
      (.one (Branch.ofList (texts.map s.flags.lookTerm))) { cursor with rest := [] } := by
  have hterms : Gives s (readTerms (readGroup nestingLimit) (lookRow texts) [])
      { cursor with rest := lookRow texts } _ { cursor with rest := [] } :=
    gives_readTerms_row 255 texts [] (length_le_length_lookRow texts)
  have hchoice : Gives s (readChoice (readGroup nestingLimit)) { cursor with rest := lookRow texts }
      _ { cursor with rest := [] } := .get (.get (hterms.bind rfl))
  exact hchoice.bind rfl

end

/-- A row of look-aheads is read with any flags. -/
theorem Source.parse_lookRow (texts : List (List Char)) (f : Flags) (o : Options) :
    Source.parse ⟨String.ofList (lookRow texts), f, o⟩ =
      .ok
        { body := .one (Branch.ofList (texts.map f.lookTerm))
          flags := f
          groupCount := (scanGroups (lookRow texts)).count + 1
          groupNames := []
          context := 0 } := by
  have hread : Gives ⟨f, (lookRow texts).length, scanGroups (lookRow texts)⟩ readPattern
      { rest := lookRow texts } _ _ := gives_readPattern_row ⟨[], 1, [], 0⟩ texts
  simp only [Source.parse, String.toList_ofList]
  rw [show (readPattern.run ⟨f, (lookRow texts).length, scanGroups (lookRow texts)⟩).run
    { rest := lookRow texts } = _ from hread]

/-! ### Building a row -/

/-- The sets of the units of a text. -/
def textSets (text : List Char) : List CharSet :=
  (text.flatMap fun c => encodeCodePoint c.toNat).map CharSet.single

namespace Build

variable {α β : Type} {limit count count' : Nat} {bodies bodies' : List (List (List CharSet))}

/-- Where there is room for some more states, a construction succeeds, takes no more of them and notes
some look-ahead bodies. -/
def Takes (limit count : Nat) (bodies : List (List (List CharSet))) (m : Build α) : Prop :=
  ∀ draft : Draft, draft.nodes.size + count ≤ limit → ∃ a after, m draft = .ok (a, after) ∧
    after.nodes.size ≤ draft.nodes.size + count ∧ draft.lookAheads ++ bodies ⊆ after.lookAheads

namespace Takes

theorem pure (a : α) : Takes limit 0 [] (Pure.pure a : Build α) := fun draft _ =>
  ⟨a, draft, rfl, Nat.le_refl _, by simp⟩

theorem bind {m : Build α} {f : α → Build β} (hm : Takes limit count bodies m)
    (hf : ∀ a, Takes limit count' bodies' (f a)) :
    Takes limit (count + count') (bodies ++ bodies') (m >>= f) := by
  intro draft hroom
  obtain ⟨a, middle, ha, hsize, hsub⟩ := hm draft (by omega)
  obtain ⟨b, after, hb, hsize', hsub'⟩ := hf a middle (by omega)
  refine ⟨b, after, bind_eq_ok.mpr ⟨a, middle, ha, hb⟩, by omega, ?_⟩
  obtain ⟨hkeep, hnew⟩ := List.append_subset.mp hsub'
  rw [← List.append_assoc]
  exact List.append_subset.mpr ⟨List.Subset.trans hsub hkeep, hnew⟩

theorem get {f : Draft → Build β} (hf : ∀ draft, Takes limit count bodies (f draft)) :
    Takes limit count bodies (MonadState.get >>= f) := fun draft => hf draft draft

theorem mono {m : Build α} (h : Takes limit count bodies m) (hcount : count ≤ count')
    (hbodies : bodies' ⊆ bodies) : Takes limit count' bodies' m := by
  intro draft hroom
  obtain ⟨a, after, ha, hsize, hsub⟩ := h draft (by omega)
  obtain ⟨hkeep, hnew⟩ := List.append_subset.mp hsub
  exact ⟨a, after, ha, by omega, List.append_subset.mpr ⟨hkeep, List.Subset.trans hbodies hnew⟩⟩

theorem add (plan : BuildPlan) (origin : Nat) (state : NfaState) :
    Takes plan.config.maxAutomatonStates 1 [] (plan.add origin state) := by
  intro draft hroom
  refine ⟨draft.nodes.size, { draft with nodes := draft.nodes.push ⟨state, origin⟩ }, ?_, ?_, ?_⟩
  · simp [BuildPlan.add, Nat.not_le.mpr hroom]
  · simp
  · simp [Draft.lookAheads]

theorem put (id : Nat) (state : NfaState) : Takes limit 0 [] (BuildPlan.put id state) :=
  fun draft _ => ⟨(), _, rfl, by simp, by simp [Draft.lookAheads]⟩

theorem addLookAhead (body : List (List CharSet)) :
    Takes limit 0 [body] (BuildPlan.addLookAhead body) := by
  rintro ⟨nodes, behinds, aheads, counters⟩ _
  obtain ⟨hget, ⟨more, hmore⟩, -⟩ := Bodies.add_spec body aheads
  refine ⟨(aheads.add body).1, ⟨nodes, behinds, (aheads.add body).2, counters⟩, rfl,
    Nat.le_refl _, List.append_subset.mpr ⟨?_, ?_⟩⟩
  · show aheads.toList ⊆ (aheads.add body).2.toList
    rw [← hmore]
    exact List.subset_append_left _ _
  · exact List.cons_subset.mpr ⟨List.mem_of_getElem? hget, List.nil_subset _⟩

end Takes

end Build

open Build

section

variable {f : Flags} (hcase : f.ignoreCase = false) {plan : BuildPlan}
  (hd : plan.direction = .forward)

theorem takes_groupPass {count : Nat} {bodies : List (List (List CharSet))}
    {branches : Nat → Build (List Nat)}
    (h : ∀ exit, Takes plan.config.maxAutomatonStates count bodies (branches exit))
    (origin : Nat) (capture : Option Nat) (next : Nat) :
    Takes plan.config.maxAutomatonStates (count + 3) bodies
      (plan.groupPass origin capture branches next) := by
  have hpure (id : Nat) : Takes plan.config.maxAutomatonStates 1 [] (pure id : Build Nat) :=
    (Takes.pure id).mono (Nat.zero_le 1) (List.Subset.refl [])
  have hsize : 1 + (count + (1 + 1)) ≤ count + 3 := by omega
  have hbodies : bodies ⊆ [] ++ (bodies ++ ([] ++ [])) := by simp
  unfold BuildPlan.groupPass
  dsimp only
  refine Takes.mono ?_ hsize hbodies
  cases capture.filter fun _ => plan.captures with
  | some g =>
    refine (Takes.add plan origin _).bind fun exit => (h exit).bind fun entries => ?_
    split
    · exact (hpure _).bind fun entry => .add plan origin _
    · exact (Takes.add plan origin _).bind fun entry => .add plan origin _
  | none =>
    refine (hpure next).bind fun exit => (h exit).bind fun entries => ?_
    split
    · exact (hpure _).bind hpure
    · exact (Takes.add plan origin _).bind hpure

include hd hcase

theorem takes_lookTerm {text : List Char}
    (hlength : (textSets text).length ≤ plan.config.maxLookAhead) (id next : Nat) :
    Takes plan.config.maxAutomatonStates 1 [[textSets text]]
      ((f.lookTerm text).compile plan id next) := by
  have hplain : (Choice.one (Branch.ofList
      (text.map fun c => f.literalTerm c.toNat))).plain? = some [textSets text] := by
    rw [Choice.plain?, Branch.plain?_literals hcase]
    rfl
  rw [Flags.lookTerm, Term.compile, BuildPlan.lookAhead]
  simp only [hd, hplain]
  rw [if_neg (by simp [BuildPlan.maxLookAheadBranches])]
  simp only [List.find?_cons, Nat.not_lt.mpr hlength, decide_false, List.find?_nil]
  exact (Takes.addLookAhead _).bind fun i => .add plan id _

theorem takes_lookRow {texts : List (List Char)}
    (hlengths : ∀ text ∈ texts, (textSets text).length ≤ plan.config.maxLookAhead) (id next : Nat) :
    Takes plan.config.maxAutomatonStates texts.length (texts.map fun text => [textSets text])
      ((Branch.ofList (texts.map f.lookTerm)).compile plan id next) := by
  induction texts generalizing id with
  | nil => exact .pure next
  | cons text texts ih =>
    simp only [List.map_cons, Branch.ofList, Branch.compile, hd]
    refine ((ih (fun text htext => hlengths text (List.mem_cons_of_mem _ htext)) _).bind
      fun entry => takes_lookTerm hcase hd (hlengths text List.mem_cons_self) id entry).mono
      (Nat.le_refl _) ?_
    intro body hbody
    rcases List.mem_cons.mp hbody with rfl | hbody
    · exact List.mem_append_right _ (List.mem_singleton_self _)
    · exact List.mem_append_left _ hbody

theorem takes_run {texts : List (List Char)}
    (hlengths : ∀ text ∈ texts, (textSets text).length ≤ plan.config.maxLookAhead) {p : Pattern}
    (hbody : p.body = .one (Branch.ofList (texts.map f.lookTerm))) (hcontext : p.context = 0) :
    Takes plan.config.maxAutomatonStates (texts.length + 6)
      (texts.map fun text => [textSets text]) (plan.run p) := by
  have hbranches (id exit : Nat) : Takes plan.config.maxAutomatonStates texts.length
      (texts.map fun text => [textSets text]) (p.body.compile plan id exit) := by
    rw [hbody, Choice.compile]
    exact ((takes_lookRow hcase hd hlengths _ exit).bind fun entry => .pure [entry]).mono
      (Nat.le_refl _) (by simp)
  have hroot (id next : Nat) : Takes plan.config.maxAutomatonStates (texts.length + 3)
      (texts.map fun text => [textSets text]) (p.root.compile plan id next) := by
    rw [Pattern.root, Term.compile]
    exact takes_groupPass (hbranches (id + 1)) id _ next
  have hloop (start : Nat) : Takes plan.config.maxAutomatonStates 2 []
      (plan.addSearchLoop p.layout start) :=
    (Takes.add plan _ _).bind fun split => (Takes.add plan _ _).bind fun skip =>
      (Takes.put split _).bind fun _ => .pure split
  have hall : Takes plan.config.maxAutomatonStates (1 + (texts.length + 3 + (2 + (0 + 0))))
      ([] ++ ((texts.map fun text => [textSets text]) ++ ([] ++ ([] ++ [])))) (plan.run p) := by
    unfold BuildPlan.run
    simp only [hd, hcontext, BuildPlan.addEntries]
    refine (Takes.add plan _ _).bind fun accept => (hroot _ accept).bind fun start => ?_
    split
    · exact ((Takes.pure start).bind fun search => (Takes.pure _).bind fun entries =>
        .get fun draft => .pure _).mono (Nat.zero_le _) (List.Subset.refl [])
    · exact (hloop start).bind fun search => (Takes.pure _).bind fun entries =>
        .get fun draft => .pure _
  exact hall.mono (by omega) (by simp)

end

theorem Branch.hasBackReference_ofList (terms : List Term) :
    (Branch.ofList terms).hasBackReference = terms.any Term.hasBackReference := by
  induction terms with
  | nil => rfl
  | cons t rest ih =>
    rw [Branch.ofList, Branch.hasBackReference, ih]
    rfl

theorem Flags.hasBackReference_literalTerm (f : Flags) (n : Nat) :
    (f.literalTerm n).hasBackReference = false := by
  unfold literalTerm
  split
  · rfl
  · rw [Term.hasBackReference, Choice.hasBackReference, Branch.hasBackReference_ofList]
    simp [unitTerm, Term.hasBackReference]

theorem Flags.hasBackReference_lookTerm (f : Flags) (text : List Char) :
    (f.lookTerm text).hasBackReference = false := by
  rw [lookTerm, Term.hasBackReference, Choice.hasBackReference, Branch.hasBackReference_ofList]
  simp [hasBackReference_literalTerm]

/-- There is an automaton with a body for every text of a row of look-aheads, if it may have so many
states and bodies so long. -/
theorem Nfa.exists_build_lookRow (texts : List (List Char)) {config : Config}
    (hroom : texts.length + 6 ≤ config.maxAutomatonStates)
    (hlengths : ∀ text ∈ texts, (textSets text).length ≤ config.maxLookAhead) :
    ∃ (p : Pattern) (nfa : Nfa), Source.parse ⟨String.ofList (lookRow texts), {}, {}⟩ = .ok p ∧
      Nfa.build ⟨p, true⟩ config .forward = .ok nfa ∧
      ∀ text ∈ texts, [textSets text] ∈ nfa.lookAheads := by
  let f : Flags := {}
  let p : Pattern :=
    { body := .one (Branch.ofList (texts.map f.lookTerm))
      flags := f
      groupCount := (scanGroups (lookRow texts)).count + 1
      groupNames := []
      context := 0 }
  let plan : BuildPlan := ⟨config, .forward, false⟩
  have hback : p.hasBackReference = false := by
    show (Branch.ofList (texts.map f.lookTerm)).hasBackReference = false
    rw [Branch.hasBackReference_ofList]
    simp [Flags.hasBackReference_lookTerm]
  have htakes : Takes plan.config.maxAutomatonStates (texts.length + 6)
      (texts.map fun text => [textSets text]) (plan.run p) :=
    takes_run (f := f) rfl rfl hlengths rfl rfl
  obtain ⟨nfa, after, hrun, -, hbodies⟩ := htakes {} (by simpa using hroom)
  have hbuild : Nfa.build ⟨p, true⟩ config .forward = .ok nfa := by
    have hrun' : (plan.run p).run' {} = .ok nfa := by
      show (plan.run p {}).map (·.1) = .ok nfa
      rw [hrun]
      rfl
    simp only [Nfa.build, Bool.not_true, Bool.false_eq_true, if_false, hback, reduceCtorEq,
      false_and]
    exact hrun'
  obtain ⟨_, _, _, _, _, _, _, _, -, -, -, -, hnfa⟩ := BuildPlan.run_eq_ok rfl hrun
  refine ⟨p, nfa, Source.parse_lookRow texts f {}, hbuild, fun text htext => ?_⟩
  rw [hnfa]
  exact hbodies (List.mem_append_right _ (List.mem_map_of_mem htext))

/-! ### As many texts as there are numbers -/

/-- The lowest binary digits of a number as a text, the first one for the lowest. -/
def binaryText (length n : Nat) : List Char :=
  (List.range length).map fun k => if n.testBit k then 'a' else 'b'

theorem textSets_binaryText (length n : Nat) :
    textSets (binaryText length n) =
      (List.range length).map fun k => CharSet.single (if n.testBit k then 97 else 98) := by
  rw [textSets, binaryText, List.flatMap_map, List.map_flatMap, List.map_eq_flatMap]
  refine congrArg (fun f => (List.range length).flatMap f) (funext fun k => ?_)
  cases n.testBit k <;> rfl

theorem length_textSets_binaryText (length n : Nat) :
    (textSets (binaryText length n)).length = length := by
  rw [textSets_binaryText, List.length_map, List.length_range]

theorem textSets_binaryText_inj {length m n : Nat} (hm : m < 2 ^ length) (hn : n < 2 ^ length)
    (h : textSets (binaryText length m) = textSets (binaryText length n)) : m = n := by
  rw [textSets_binaryText, textSets_binaryText] at h
  refine Nat.eq_of_testBit_eq fun k => ?_
  by_cases hk : k < length
  · have hset := List.map_inj_left.mp h k (List.mem_range.mpr hk)
    have hne : CharSet.single 97 ≠ CharSet.single 98 := by decide
    cases hbit : m.testBit k <;> cases hbit' : n.testBit k <;>
      simp [hbit, hbit', hne, hne.symm] at hset ⊢
  · have hpow : 2 ^ length ≤ 2 ^ k := Nat.pow_le_pow_right (by decide) (Nat.le_of_not_lt hk)
    rw [Nat.testBit_lt_two_pow (by omega), Nat.testBit_lt_two_pow (by omega)]

/-- There are automata with any number of different bodies. -/
theorem Nfa.exists_build_binaryTexts {length count : Nat} (hcount : count ≤ 2 ^ length)
    (config : Config) (hroom : count + 6 ≤ config.maxAutomatonStates)
    (hlength : length ≤ config.maxLookAhead) :
    ∃ (p : Pattern) (nfa : Nfa),
      Source.parse
        ⟨String.ofList (lookRow ((List.range count).map (binaryText length))), {}, {}⟩ = .ok p ∧
      Nfa.build ⟨p, true⟩ config .forward = .ok nfa ∧ count ≤ nfa.lookAheads.length := by
  have hlengths : ∀ text ∈ (List.range count).map (binaryText length),
      (textSets text).length ≤ config.maxLookAhead := by
    intro text htext
    obtain ⟨n, -, rfl⟩ := List.mem_map.mp htext
    rwa [length_textSets_binaryText]
  obtain ⟨p, nfa, hparse, hbuild, hmem⟩ := exists_build_lookRow _ (by simpa using hroom) hlengths
  refine ⟨p, nfa, hparse, hbuild, ?_⟩
  let bodies : List (List (List CharSet)) :=
    (List.range count).map fun n => [textSets (binaryText length n)]
  have hdistinct : bodies.Nodup := by
    refine List.nodup_range.map_on fun m hm n hn h => ?_
    rw [List.mem_range] at hm hn
    exact textSets_binaryText_inj (by omega) (by omega) (List.singleton_inj.mp h)
  have hsub : bodies ⊆ nfa.lookAheads := by
    intro body hbody
    obtain ⟨n, hn, rfl⟩ := List.mem_map.mp hbody
    exact hmem _ (List.mem_map_of_mem hn)
  have hle := (hdistinct.subperm hsub).length_le
  rwa [List.length_map, List.length_range] at hle

end UnitRegex
