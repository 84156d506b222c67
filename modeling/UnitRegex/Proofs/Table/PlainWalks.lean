import UnitRegex.Proofs.Table.Exact

/-!
Walks without shortcuts. A trail reads one unit at a time and goes on by the first matcher that
accepts it. Every state on it is asked for a report at its position, and the last report counts. The
walks of a table pass over runs of units that lead back to the same state, and compare with a single
unit where only one leads on; what they find is the last report of the trail.
-/

namespace UnitRegex

namespace Dfa

/-- The states that some units lead to one after the other, each by the matchers of the one
before. -/
def trail (d : Dfa) (s : TableState) : List CodeUnit → List TableState
  | [] => [s]
  | c :: rest =>
    s :: match s.byEdges c with
      | some id => d.trail (d.state id) rest
      | none => []

/-- A trail to the right, with the position of each state. -/
def trailRight (d : Dfa) (text : Text) (id cursor : Nat) : List (TableState × Nat) :=
  (d.trail (d.state id) (text.toList.drop cursor)).zipIdx cursor

/-- A trail to the left that does not go past `floor`. -/
def trailLeft (d : Dfa) (text : Text) (id stop floor : Nat) : List (TableState × Nat) :=
  (d.trail (d.state id) ((text.toList.take stop).drop floor).reverse).mapIdx fun i s => (s, stop - i)

def lastReport {α : Type} (report : TableState → Nat → Option α) (l : List (TableState × Nat)) :
    Option α :=
  (l.filterMap fun e => report e.1 e.2).getLast?

/-- The end that a trail to the right reports last. -/
def plainEnd? (d : Dfa) (text : Text) (id cursor : Nat) : Option Nat :=
  lastReport (fun s i => endAt? text s.acceptance i) (d.trailRight text id cursor)

/-- The accepting position that a trail to the left comes by last. -/
def plainStart? (d : Dfa) (text : Text) (id stop floor : Nat) : Option Nat :=
  lastReport
    (fun s i => if s.acceptance.anywhere || (i == 0 && s.acceptance.atEdge) then some i else none)
    (d.trailLeft text id stop floor)

/-- The position with a precalculated result that a trail to the left comes by last, and the id of
that result. -/
def plainResult? (d : Dfa) (text : Text) (id stop floor : Nat) : Option (Nat × UInt8) :=
  lastReport (fun s i => (s.resultIds.choose? (i == 0)).map fun result => (i, result))
    (d.trailLeft text id stop floor)

/-- The walks of a table find what its trails report last. -/
structure WalksPlainly (d : Dfa) : Prop where
  lastEnd? : ∀ text id cursor, cursor ≤ text.size →
    d.lastEnd? text id cursor = d.plainEnd? text id cursor
  firstStart? : ∀ text id stop floor, floor ≤ stop → stop ≤ text.size →
    d.firstStart? text id stop floor = d.plainStart? text id stop floor
  firstResult? : ∀ text id stop floor, floor ≤ stop → stop ≤ text.size →
    d.firstResult? text id stop floor = d.plainResult? text id stop floor

section

variable {α : Type} {d : Dfa} {text : Text} {report : TableState → Nat → Option α}

theorem lastReport_cons (s : TableState) (i : Nat) (l : List (TableState × Nat)) :
    lastReport report ((s, i) :: l) = (lastReport report l).or (report s i) := by
  unfold lastReport
  cases hreport : report s i with
  | none => simp [hreport]
  | some a =>
    rw [List.filterMap_cons]
    simp only [hreport, List.getLast?_cons]
    cases (l.filterMap fun e => report e.1 e.2).getLast? <;> rfl

theorem lastReport_map {β : Type} (f : α → β) (l : List (TableState × Nat)) :
    (lastReport report l).map f = lastReport (fun s i => (report s i).map f) l := by
  rw [lastReport, lastReport, ← List.getLast?_map, List.map_filterMap]

theorem state_of_size_le {id : Nat} (h : d.size ≤ id) : d.state id = TableState.dead := by
  rw [state, Array.getElem?_eq_none h, Option.getD_none]

theorem trail_dead (units : List CodeUnit) :
    d.trail TableState.dead units = [TableState.dead] := by
  cases units with
  | nil => rfl
  | cons c rest => simp [trail, TableState.byEdges, TableState.dead]

/-! ### A table as an automaton of its own states -/

/-- The states of a table as keys; `d.size` stands for no state. -/
def asPowerset (d : Dfa) : Powerset Nat where
  nextSets _ := []
  after id c := ((d.state id).byEdges c).getD d.size
  dead id := decide (d.size ≤ id)
  acceptance id := (d.state id).acceptance
  resultIds id := (d.state id).resultIds

/-- The states that the matchers of a state lead to. -/
theorem trail_cons (id : Nat) (c : CodeUnit) (rest : List CodeUnit) :
    ∃ l, d.trail (d.state id) (c :: rest) = d.state id :: l ∧
      (l = d.trail (d.state (d.asPowerset.after id c)) rest ∨
        l = [] ∧ d.state (d.asPowerset.after id c) = TableState.dead) := by
  rw [trail]
  cases hnext : (d.state id).byEdges c with
  | some j => exact ⟨_, rfl, .inl (by simp [asPowerset, hnext])⟩
  | none =>
    refine ⟨_, rfl, .inr ⟨rfl, ?_⟩⟩
    apply state_of_size_le
    simp [asPowerset, hnext]

variable {κ : Type} {view : Powerset κ} {initial : List κ} {keys : Array κ}

/-- A table of keys is a table of its own states. -/
theorem represents_self (ht : view.Tabulates initial d keys) {i id : Nat}
    (hid : (Array.range d.size)[i]? = some id) :
    d.asPowerset.Represents (Array.range d.size) id (d.state i) := by
  have hrange {i id : Nat} : (Array.range d.size)[i]? = some id ↔ i < d.size ∧ i = id := by
    rw [Array.getElem?_range]
    split <;> simp_all
  obtain ⟨hlt, rfl⟩ := hrange.mp hid
  have hkeys : i < keys.size := by rwa [← ht.size]
  have hexact := ht.exactState (Array.getElem?_eq_getElem hkeys)
  have hafter {c : CodeUnit} : d.asPowerset.after i c = ((d.state i).next c).getD d.size := by
    rw [hexact.coherent.next]
    rfl
  refine ⟨hrange.mpr ⟨hexact.id.symm ▸ hlt, hexact.id⟩, rfl, rfl, ?_, ?_, hexact.coherent⟩
  · intro c j hnext
    obtain ⟨-, hj⟩ := (hexact.next_some c j).mp hnext
    obtain ⟨hjlt, -⟩ := Array.getElem?_eq_some_iff.mp hj
    have hjlt : j < d.size := by rwa [Dfa.size, ht.size]
    rw [hafter, hnext, Option.getD_some]
    exact ⟨by simpa [asPowerset] using hjlt, hrange.mpr ⟨hjlt, rfl⟩⟩
  · intro c hnext
    rw [hafter, hnext]
    simp [asPowerset]

/-! ### Trails step by step -/

/-- A report of a state without successors is none. -/
def Quiet (report : TableState → Nat → Option α) : Prop := ∀ i, report TableState.dead i = none

theorem lastReport_trailRight_of_dead (hquiet : Quiet report) {id : Nat}
    (hid : d.state id = TableState.dead) (cursor : Nat) :
    lastReport report (d.trailRight text id cursor) = none := by
  rw [trailRight, hid, trail_dead, List.zipIdx_singleton, lastReport_cons, hquiet cursor]
  rfl

theorem lastReport_trailLeft_of_dead (hquiet : Quiet report) {id : Nat}
    (hid : d.state id = TableState.dead) (stop floor : Nat) :
    lastReport report (d.trailLeft text id stop floor) = none := by
  rw [trailLeft, hid, trail_dead, List.mapIdx_singleton, lastReport_cons, hquiet (stop - 0)]
  rfl

theorem lastReport_trailRight_of_lt (hquiet : Quiet report) {id cursor : Nat}
    (h : cursor < text.size) :
    lastReport report (d.trailRight text id cursor) =
      (lastReport report (d.trailRight text (d.asPowerset.after id text[cursor]) (cursor + 1))).or
        (report (d.state id) cursor) := by
  have hdrop : text.toList.drop cursor = text[cursor] :: text.toList.drop (cursor + 1) := by
    rw [List.drop_eq_getElem_cons (by simpa using h), Array.getElem_toList]
  obtain ⟨l, htrail, hl⟩ := d.trail_cons id text[cursor] (text.toList.drop (cursor + 1))
  rw [trailRight, hdrop, htrail, List.zipIdx_cons, lastReport_cons]
  rcases hl with rfl | ⟨rfl, hdead⟩
  · rfl
  · rw [lastReport_trailRight_of_dead hquiet hdead]
    rfl

theorem lastReport_trailRight_of_le {id cursor : Nat} (h : text.size ≤ cursor) :
    lastReport report (d.trailRight text id cursor) = report (d.state id) cursor := by
  rw [trailRight, List.drop_of_length_le (by simpa using h), trail, List.zipIdx_singleton,
    lastReport_cons]
  rfl

theorem lastReport_trailLeft_of_le (hquiet : Quiet report) {id i floor : Nat} (hfloor : floor ≤ i)
    (hi : i < text.size) :
    lastReport report (d.trailLeft text id (i + 1) floor) =
      (lastReport report (d.trailLeft text (d.asPowerset.after id text[i]) i floor)).or
        (report (d.state id) (i + 1)) := by
  have htake : text.toList.take (i + 1) = text.toList.take i ++ [text[i]] := by
    rw [List.take_succ_eq_append_getElem (by simpa using hi), Array.getElem_toList]
  have hunits : ((text.toList.take (i + 1)).drop floor).reverse =
      text[i] :: ((text.toList.take i).drop floor).reverse := by
    rw [htake, List.drop_append_of_le_length (by simp; omega), List.reverse_append]
    rfl
  obtain ⟨l, htrail, hl⟩ := d.trail_cons id text[i] ((text.toList.take i).drop floor).reverse
  rw [trailLeft, hunits, htrail, List.mapIdx_cons, lastReport_cons]
  have hshift : (fun j s => ((s, i + 1 - (j + 1)) : TableState × Nat)) = fun j s => (s, i - j) := by
    funext j s
    rw [Nat.add_sub_add_right]
  rcases hl with rfl | ⟨rfl, hdead⟩
  · rw [hshift]
    rfl
  · rw [lastReport_trailLeft_of_dead hquiet hdead]
    rfl

theorem lastReport_trailLeft_floor {id stop : Nat} :
    lastReport report (d.trailLeft text id stop stop) = report (d.state id) stop := by
  have hunits : (text.toList.take stop).drop stop = [] := by
    rw [List.drop_eq_nil_iff]
    exact List.length_take_le _ _
  rw [trailLeft, hunits, List.reverse_nil, trail, List.mapIdx_singleton, lastReport_cons]
  rfl

/-! ### Walks against trails -/

theorem quiet_endAt? : Quiet fun s i => endAt? text s.acceptance i := by
  intro i
  simp [endAt?, TableState.dead]

theorem endsBy_plainEnd? (d : Dfa) (text : Text) :
    EndsBy d.asPowerset (Array.range d.size) text (fun _ _ => True) (d.plainEnd? text) where
  step := by
    intros
    trivial
  val_eq := by
    intro i id cursor _ _ hle
    rcases Nat.lt_or_eq_of_le hle with hlt | rfl
    · rw [Array.getElem?_eq_getElem hlt, Option.bind_some]
      exact lastReport_trailRight_of_lt quiet_endAt? hlt
    · rw [Array.getElem?_eq_none (Nat.le_refl _), Option.bind_none, Option.none_or]
      exact lastReport_trailRight_of_le (Nat.le_refl _)

theorem startsBy_lastReport (hquiet : Quiet report) (floor : Nat) :
    StartsBy d.asPowerset (Array.range d.size) text floor (fun id => report (d.state id))
      fun id stop => lastReport (fun s i => (report s i).map fun a => (i, a))
        (d.trailLeft text id stop floor) := by
  have hquiet : Quiet fun s i => (report s i).map fun a => (i, a) := by
    intro i
    simp [hquiet i]
  intro i id stop _ hfloor hstop
  rcases Nat.lt_or_eq_of_le hfloor with hlt | rfl
  · obtain ⟨j, rfl⟩ : ∃ j, stop = j + 1 := ⟨stop - 1, by omega⟩
    rw [if_pos hlt, Nat.add_sub_cancel, Array.getElem?_eq_getElem (by omega), Option.bind_some]
    exact lastReport_trailLeft_of_le hquiet (Nat.le_of_lt_succ hlt) hstop
  · rw [if_neg (Nat.lt_irrefl _), Option.none_or]
    exact lastReport_trailLeft_floor

/-- A walk to the left finds the last report of the trail. What is reported at a position has to be
reported further to the left as well. -/
theorem walkBack_eq_lastReport (ht : view.Tabulates initial d keys)
    (hsame : ∀ s t, s.acceptance = t.acceptance → s.resultIds = t.resultIds → report s = report t)
    (hreport : ∀ s i j, i ≤ j → (report s j).isSome → (report s i).isSome)
    (hquiet : Quiet report) (id : Nat) {floor stop : Nat} (hfloor : floor ≤ stop)
    (hstop : stop ≤ text.size) :
    d.walkBack text report floor (d.state id) stop none =
      lastReport (fun s i => (report s i).map fun a => (i, a))
        (d.trailLeft text id stop floor) := by
  have hquiet' : Quiet fun s i => (report s i).map fun a => (i, a) := by
    intro i
    simp [hquiet i]
  rcases Nat.lt_or_ge id d.size with hid | hid
  · have hkey : (Array.range d.size)[id]? = some id := by simp [hid]
    have hwalk := walkBack_eq (fun _ _ => represents_self ht)
      (fun key s cursor hs => congrFun (hsame s (d.state key) hs.acceptance hs.resultIds) cursor)
      (fun key => hreport (d.state key))
      (fun key cursor hdead => lastReport_trailLeft_of_dead hquiet'
        (state_of_size_le (of_decide_eq_true hdead)) cursor floor)
      (startsBy_lastReport hquiet floor) hkey hfloor hstop none
    rwa [Option.or_none] at hwalk
  · have hdead := state_of_size_le hid
    have hstep : text[stop - 1]?.bind TableState.dead.next = none := by
      cases text[stop - 1]? <;> rfl
    rw [lastReport_trailLeft_of_dead hquiet' hdead, hdead, walkBack, hquiet stop, hstep]
    simp [TableState.dead]

theorem lastEnd?_eq_plainEnd? (ht : view.Tabulates initial d keys) (id : Nat) {cursor : Nat}
    (hcursor : cursor ≤ text.size) : d.lastEnd? text id cursor = d.plainEnd? text id cursor := by
  rcases Nat.lt_or_ge id d.size with hid | hid
  · have hkey : (Array.range d.size)[id]? = some id := by simp [hid]
    have hwalk := endFrom_eq (fun _ _ => represents_self ht)
      (fun key cursor hdead => lastReport_trailRight_of_dead quiet_endAt?
        (state_of_size_le (of_decide_eq_true hdead)) cursor)
      (endsBy_plainEnd? d text) hkey hcursor trivial none
    rwa [Option.or_none] at hwalk
  · have hdead := state_of_size_le hid
    rw [plainEnd?, lastReport_trailRight_of_dead quiet_endAt? hdead, Dfa.lastEnd?, hdead, endFrom]
    simp [TableState.dead, TableState.next, TableState.byEdges, endAt?]

theorem walksPlainly (ht : view.Tabulates initial d keys) : d.WalksPlainly where
  lastEnd? _ id _ hcursor := lastEnd?_eq_plainEnd? ht id hcursor
  firstStart? := by
    intro text id stop floor hfloor hstop
    rw [Dfa.firstStart?, walkBack_eq_lastReport ht _ _ _ id hfloor hstop, lastReport_map]
    · rw [plainStart?]
      congr 1
      funext s i
      split <;> rfl
    · intro s t hacceptance _
      rw [hacceptance]
    · intro s i j hle h
      by_cases hany : s.acceptance.anywhere
      · simp [hany]
      · obtain ⟨hj, hedge⟩ : j = 0 ∧ s.acceptance.atEdge = true := by simpa [hany] using h
        simp [show i = 0 by omega, hedge]
    · intro i
      simp [TableState.dead]
  firstResult? := by
    intro text id stop floor hfloor hstop
    apply walkBack_eq_lastReport ht _ _ _ id hfloor hstop
    · intro s t _ hresults
      rw [hresults]
    · intro s i j hle h
      by_cases hj : j = 0
      · rwa [show i = j by omega]
      · rw [show (j == 0) = false by simpa using hj] at h
        exact ResultIds.isSome_choose? h _
    · intro i
      cases i <;> rfl

end

end Dfa

/-- Whatever automaton or paths a table is made of, and from whatever keys and with however many
states, its walks find what a reading by its matchers alone reports last. -/
theorem Dfa.walksPlainly_of_tabulate {nfa : Nfa} {paths : Array Path} {maxStates : Nat} {d : Dfa}
    (h : (∃ initial, (ForwardSubset.powerset nfa).tabulate initial maxStates = .ok d) ∨
      (∃ initial, (BackwardSubset.powerset nfa).tabulate initial maxStates = .ok d) ∨
      ∃ initial, (PathSubset.powerset paths).tabulate initial maxStates = .ok d) :
    d.WalksPlainly := by
  rcases h with ⟨_, h⟩ | ⟨_, h⟩ | ⟨_, h⟩
  · obtain ⟨keys, -, ht⟩ := Powerset.tabulates_of_tabulate (ForwardSubset.respects nfa) h
    exact walksPlainly ht
  · obtain ⟨keys, -, ht⟩ := Powerset.tabulates_of_tabulate (BackwardSubset.respects nfa) h
    exact walksPlainly ht
  · obtain ⟨keys, -, ht⟩ := Powerset.tabulates_of_tabulate (PathSubset.respects paths) h
    exact walksPlainly ht

/-- The end of `ab*` in `cabb` lies behind a run over the loop of the third state. -/
theorem Dfa.walksPlainly_of_tabulate_loop :
    ∃ p nfa d, Source.parse ⟨"ab*", {}, {}⟩ = .ok p ∧
      Nfa.build ⟨p, true⟩ {} .forward = .ok nfa ∧
      (ForwardSubset.powerset nfa).tabulate (ForwardSubset.initial nfa) 100 = .ok d ∧
      (d.state 2).loop.isSome ∧ d.plainEnd? #[99, 97, 98, 98] (d.entry 2) 0 = some 4 := by
  let p : Pattern :=
    ⟨.one (.cons (.unit (.single 97)) (.cons (.group none (some ⟨0, none, true⟩)
      (.one (.cons (.unit (.single 98)) .nil))) .nil)), {}, 1, [], 0⟩
  have hparse : Source.parse ⟨"ab*", {}, {}⟩ = .ok p := by cbv
  have hok : ((Nfa.build ⟨p, true⟩ {} .forward).toOption.any fun nfa =>
      ((ForwardSubset.powerset nfa).tabulate (ForwardSubset.initial nfa) 100).toOption.any fun d =>
        decide ((d.state 2).loop.isSome ∧
          d.lastEnd? #[99, 97, 98, 98] (d.entry 2) 0 = some 4)) = true := by cbv
  obtain ⟨nfa, hbuild, hok⟩ := exists_eq_ok_of_any hok
  obtain ⟨d, htable, hok⟩ := exists_eq_ok_of_any hok
  obtain ⟨hloop, hend⟩ := of_decide_eq_true hok
  have hplain := (@Dfa.walksPlainly_of_tabulate nfa #[] 100 d (.inl ⟨_, htable⟩)).lastEnd?
    #[99, 97, 98, 98] (d.entry 2) 0 (Nat.zero_le _)
  exact ⟨p, nfa, d, hparse, hbuild, htable, hloop, hplain.symm.trans hend⟩

end UnitRegex
