import Mathlib
import UnitRegex.Proofs.Pattern.Captures

/-!
The first pass over a pattern and the reader agree on the capture groups: on their number, their
order, their names, and on what back-references refer to.
-/

namespace UnitRegex

/-- What follows a parenthesis that opens a capture group. -/
def Paren.group? : Paren → Option (List Char)
  | .opening rest => if opensGroup rest then some rest else none
  | .closing => none

/-- What follows the parentheses of a text that open capture groups, from left to right. -/
def groupOpenings (chars : List Char) : List (List Char) :=
  (parens false chars).filterMap Paren.group?

/-- The name that stands behind the parenthesis of a capture group. -/
def groupName? : List Char → Option String
  | '?' :: '<' :: rest => some (String.ofList (rest.takeWhile (· != '>')))
  | _ => none

theorem GroupScan.note_eq (scan : GroupScan) {rest : List Char} (h : opensGroup rest = true) :
    scan.note rest =
      ⟨scan.count + 1, scan.names ++ ((groupName? rest).map (·, scan.count + 1)).toList⟩ := by
  unfold GroupScan.note
  split <;> simp_all [opensGroup, groupName?]

/-- A name belongs to the group whose parenthesis it follows. -/
theorem GroupScan.mem_names_foldl (ps : List Paren) (scan : GroupScan) (name : String) (n : Nat) :
    (name, n) ∈ (ps.foldl GroupScan.meet scan).names ↔
      (name, n) ∈ scan.names ∨ ∃ i rest, n = scan.count + i + 1 ∧
        (ps.filterMap Paren.group?)[i]? = some rest ∧ groupName? rest = some name := by
  induction ps generalizing scan with
  | nil => simp
  | cons p ps ih =>
    have hskip (hgroup : p.group? = none) (hmeet : scan.meet p = scan) :
        (name, n) ∈ ((p :: ps).foldl GroupScan.meet scan).names ↔
          (name, n) ∈ scan.names ∨ ∃ i rest, n = scan.count + i + 1 ∧
            ((p :: ps).filterMap Paren.group?)[i]? = some rest ∧ groupName? rest = some name := by
      rw [List.foldl_cons, hmeet, ih, List.filterMap_cons_none hgroup]
    cases p with
    | closing => exact hskip rfl rfl
    | opening rest =>
      by_cases hopens : opensGroup rest = true
      · have hgroup : (Paren.opening rest).group? = some rest := if_pos hopens
        rw [List.foldl_cons, ih, List.filterMap_cons_some hgroup, GroupScan.meet,
          scan.note_eq hopens]
        have hown : (name, n) ∈ ((groupName? rest).map (·, scan.count + 1)).toList ↔
            n = scan.count + 1 ∧ groupName? rest = some name := by
          simp only [Option.mem_toList, Option.map_eq_some_iff, Prod.mk.injEq]
          constructor
          · rintro ⟨_, hname, rfl, rfl⟩
            exact ⟨rfl, hname⟩
          · rintro ⟨rfl, hname⟩
            exact ⟨name, hname, rfl, rfl⟩
        rw [List.mem_append, hown, or_assoc]
        apply or_congr_right
        dsimp only
        constructor
        · rintro (⟨hn, hname⟩ | ⟨i, rest', hn, hrest, hname⟩)
          · exact ⟨0, rest, hn, rfl, hname⟩
          · exact ⟨i + 1, rest', by omega, hrest, hname⟩
        · rintro ⟨i, rest', hn, hrest, hname⟩
          cases i with
          | zero =>
            obtain rfl : rest = rest' := Option.some.inj hrest
            exact .inl ⟨hn, hname⟩
          | succ i => exact .inr ⟨i, rest', by omega, hrest, hname⟩
      · rw [Bool.not_eq_true] at hopens
        exact hskip (by rw [Paren.group?, hopens]; rfl) (scan.note_of_not_opens hopens)

/-- The groups of a pattern are those that the first pass finds in its source. -/
structure Pattern.AgreesWithScan (p : Pattern) (s : Source) : Prop where
  groupCount : p.groupCount = s.setting.groups.count + 1
  /-- Every number stands at one node. -/
  numbers : (p.arena.shapes.filterMap NodeShape.capture?).Perm (List.range p.groupCount)
  /-- The groups open in the order of their numbers. -/
  captures : p.body.captures = List.range' 1 s.setting.groups.count
  /-- The groups open and close where the parentheses of the text do. -/
  brackets : p.body.brackets = UnitRegex.brackets [] 1 (parens false s.pattern.toList)
  names : p.groupNames = s.setting.groups.names
  distinct : (p.groupNames.map (·.1)).Nodup
  /-- A group has a name if the name follows its parenthesis. -/
  named : ∀ name n, (name, n) ∈ p.groupNames ↔ ∃ i rest, n = i + 1 ∧
    (groupOpenings s.pattern.toList)[i]? = some rest ∧ groupName? rest = some name
  /-- A named back-reference is to the group of that name. -/
  resolves : ∀ chars c t c', readNamedReference chars s.setting c = .ok (t, c') →
    ∃ name n, takeName [] chars.tail = .ok (name, c'.rest) ∧ t = .backReference n ∧
      (name, n) ∈ p.groupNames
  references : ∀ n, .backReference n ∈ p.arena.shapes → 1 ≤ n ∧ n ≤ s.setting.groups.count
  /-- The range of a node holds the numbers of the groups at the node and below it. -/
  ranges : ∀ slot < p.arena.shapes.length, ∃ span, p.arena.spans[slot]? = some span ∧
    (span = none ↔ ∀ g, ¬ p.arena.Carries slot g) ∧
    ∀ lo hi, span = some (lo, hi) → ∀ g, p.arena.Carries slot g ↔ lo ≤ g ∧ g < hi

theorem Arena.Agrees.range {a : Arena} {slot : Nat} {nodes : List Node} (h : a.Agrees slot nodes)
    {i : Nat} {n : Node} (hn : nodes[i]? = some n) :
    (n.captures = none ↔ ∀ g, ¬ a.Carries (slot + i) g) ∧
      ∀ lo hi, n.captures = some (lo, hi) → ∀ g, a.Carries (slot + i) g ↔ lo ≤ g ∧ g < hi := by
  obtain ⟨lo, k, hspan, hcarries⟩ := h i n hn
  simp only [List.mem_range'_1] at hcarries
  by_cases hk : k = 0
  · subst hk
    have hnone : n.captures = none := hspan.trans (if_pos rfl)
    refine ⟨iff_of_true hnone fun g hg => ?_, fun lo' hi' hsome => ?_⟩
    · have hg := (hcarries g).mp hg
      omega
    · cases hnone.symm.trans hsome
  · have hsome : n.captures = some (lo, lo + k) := hspan.trans (if_neg hk)
    refine ⟨iff_of_false (by rw [hsome]; exact Option.some_ne_none _) fun hnone => ?_,
      fun lo' hi' heq => ?_⟩
    · exact hnone lo ((hcarries lo).mpr (by omega))
    · obtain ⟨rfl, rfl⟩ := Prod.mk.inj (Option.some.inj (hsome.symm.trans heq))
      exact hcarries

theorem takeName_of_readGroupName {s : Setting} {name : String} {c c' : Cursor}
    (h : readGroupName s c = .ok (name, c')) : takeName [] c.rest = .ok (name, c'.rest) := by
  obtain ⟨cursor, d, hget, h⟩ := Reader.bind_eq_ok.mp h
  cases hget
  cases htake : takeName [] c.rest with
  | ok taken =>
    rw [htake] at h
    obtain ⟨_, d, hmove, h⟩ := Reader.bind_eq_ok.mp h
    cases hmove
    obtain ⟨rfl, rfl⟩ := Reader.pure_eq_ok.mp h
    rfl
  | error rest =>
    rw [htake] at h
    obtain ⟨_, _, -, h⟩ := Reader.bind_eq_ok.mp h
    obtain ⟨_, _, -, hthrow⟩ := Reader.bind_eq_ok.mp h
    cases hthrow

/-- A named back-reference is read as one to the group that the first pass gives the name. -/
theorem mem_names_of_readNamedReference {s : Setting} {chars : List Char} {c c' : Cursor} {t : Term}
    (h : readNamedReference chars s c = .ok (t, c')) :
    ∃ name n, takeName [] chars.tail = .ok (name, c'.rest) ∧ t = .backReference n ∧
      (name, n) ∈ s.groups.names := by
  obtain ⟨_, d, hmove, h⟩ := Reader.bind_eq_ok.mp h
  cases hmove
  obtain ⟨opened, d, haccept, h⟩ := Reader.bind_eq_ok.mp h
  rcases Reader.accept_eq_ok haccept with ⟨rfl, rest, hrest, rfl⟩ | ⟨rfl, -, -⟩
  · obtain rfl : chars = '<' :: rest := hrest
    simp only [Bool.not_true, Bool.false_eq_true, if_false] at h
    obtain ⟨name, d, hname, h⟩ := Reader.bind_eq_ok.mp h
    obtain ⟨setting, d', hread, h⟩ := Reader.bind_eq_ok.mp h
    cases hread
    have htake : takeName [] rest = .ok (name, d.rest) := takeName_of_readGroupName hname
    cases hfind : s.groups.names.find? (·.1 == name) with
    | none =>
      rw [hfind] at h
      obtain ⟨_, _, -, hthrow⟩ := Reader.bind_eq_ok.mp h
      cases hthrow
    | some entry =>
      rw [hfind] at h
      obtain ⟨rfl, rfl⟩ := Reader.pure_eq_ok.mp h
      have hentry : entry.1 = name := by simpa using List.find?_some hfind
      exact ⟨name, entry.2, htake, rfl, hentry ▸ List.mem_of_find?_eq_some hfind⟩
  · obtain ⟨_, _, -, hthrow⟩ := Reader.bind_eq_ok.mp h
    cases hthrow

/-- The reader of a pattern and the first pass over it agree on the groups. -/
theorem Source.agreesWithScan_of_parse {s : Source} {p : Pattern} (h : s.parse = .ok p) :
    p.AgreesWithScan s := by
  obtain ⟨hbrackets, hcount, hnames, hdistinct, hleaves⟩ := Source.outlined_of_parse h
  obtain ⟨k, hk, hopened⟩ := opened_brackets [] 1 (parens false s.pattern.toList) {}
  have hscan : s.setting.groups = (parens false s.pattern.toList).foldl GroupScan.meet {} :=
    GroupScan.run_eq {} false s.pattern.toList
  have hcaptures : p.body.captures = List.range' 1 s.setting.groups.count := by
    rw [Choice.captures, hbrackets, hopened, hscan, hk, Nat.zero_add]
  exact {
    groupCount := hcount
    numbers := by
      apply p.perm_captures_arena.trans
      rw [hcaptures, hcount, List.range_eq_range', List.range'_succ]
    captures := hcaptures
    brackets := hbrackets
    names := hnames
    distinct := hdistinct
    named := by
      intro name n
      rw [hnames, hscan, GroupScan.mem_names_foldl]
      simp [groupOpenings]
    resolves := by
      intro chars c t c' hrun
      rw [hnames]
      exact mem_names_of_readNamedReference hrun
    references := by
      intro n hn
      have hleaf : Leaf.backReference n ∈ p.body.leaves := by
        rw [← p.leaves_arena]
        exact List.mem_filterMap.mpr ⟨_, hn, rfl⟩
      exact hleaves _ hleaf (numbered_scanGroups _)
    ranges := by
      intro slot hslot
      rw [p.length_shapes] at hslot
      have hnode : p.nodes[slot]? = some p.nodes[slot] := List.getElem?_eq_getElem hslot
      refine ⟨p.nodes[slot].captures, ?_, ?_⟩
      · rw [p.spans_arena, List.getElem?_map, hnode]
        rfl
      · have hrange := (p.agrees_arena hcaptures).range hnode
        rwa [Nat.zero_add] at hrange }

/-- A named group with a class and an escape that hide parentheses, a group in a look-ahead and two
back-references. -/
theorem Source.agreesWithScan_of_parse_named :
    ∃ p, Source.parse ⟨"(?<x>[(]\\()(?=(a))\\k<x>\\2", {}, {}⟩ = .ok p ∧
      p.AgreesWithScan ⟨"(?<x>[(]\\()(?=(a))\\k<x>\\2", {}, {}⟩ := by
  let p : Pattern :=
    { body := .one (.cons
        (.group (some 1) none (.one (.cons (.unit (.single 0x28)) (.cons (.unit (.single 0x28)) .nil))))
        (.cons (.look false false (.one (.cons
            (.group (some 2) none (.one (.cons (.unit (.single 0x61)) .nil))) .nil)))
          (.cons (.backReference 1) (.cons (.backReference 2) .nil))))
      flags := {}
      groupCount := 3
      groupNames := [("x", 1)]
      context := 0 }
  have hparse : Source.parse ⟨"(?<x>[(]\\()(?=(a))\\k<x>\\2", {}, {}⟩ = .ok p := by cbv
  exact ⟨p, hparse, Source.agreesWithScan_of_parse hparse⟩

end UnitRegex
