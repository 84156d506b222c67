import UnitRegex.Proofs.Search.Leftmost

/-!
The leftmost path of an automaton to the right. A path reads no unit from a limit on if it ends
there at the latest. The simulation leaves the captures of the preferred one of these paths, from
the first position that has any: no thread that it drops and no branch that it follows on the way
makes a difference.
-/

namespace UnitRegex

namespace Nfa

/-- An accepting path that ends at a limit at the latest, and to which no other such path is
preferred. -/
structure PrefersWithin (nfa : Nfa) (text : Text) (stop : Nat) (x : Configuration)
    (choices : List Nat) (z : Configuration) : Prop where
  accepts : nfa.Accepts text x choices z
  le_stop : z.cursor ≤ stop
  least : ∀ others y, nfa.Accepts text x others y → y.cursor ≤ stop →
    choices = others ∨ List.Lex (· < ·) choices others

/-- The preferred path within a limit from the first position from `start` on that has any. An
anchored one only begins at `start` itself. -/
structure LeftmostPath (nfa : Nfa) (text : Text) (start stop : Nat) (anchored : Bool) (i : Nat)
    (choices : List Nat) (z : Configuration) : Prop where
  start_le : start ≤ i
  anchored : anchored = true → i = start
  prefers : nfa.PrefersWithin text stop ⟨i, Thread.initial nfa⟩ choices z
  earlier : ∀ j others y, start ≤ j → j < i →
    nfa.Accepts text ⟨j, Thread.initial nfa⟩ others y → stop < y.cursor

variable {nfa : Nfa} {text : Text} {stop : Nat}

theorem Accepts.cursor_le (hd : nfa.direction = .forward) {x z : Configuration} {choices : List Nat}
    (h : nfa.Accepts text x choices z) : x.cursor ≤ z.cursor := by
  induction h with
  | stop _ => exact Nat.le_refl _
  | step _ hstep _ ih =>
    exact Nat.le_trans (cursor_le_of_mem_steps hd (List.mem_of_getElem? hstep)) ih

theorem PrefersWithin.unique {x y z : Configuration} {choices others : List Nat}
    (h : nfa.PrefersWithin text stop x choices y) (h' : nfa.PrefersWithin text stop x others z) :
    y = z :=
  h.accepts.unique_of_least h'.accepts (h.least _ _ h'.accepts h'.le_stop)
    (h'.least _ _ h.accepts h.le_stop)

/-- The paths that a limit cuts off end behind it. -/
theorem limits_cursor (hd : nfa.direction = .forward) (hstop : stop ≤ text.size) :
    nfa.Limits text stop fun z => z.cursor ≤ stop := by
  intro x
  refine (steps_of_limit hd hstop x).imp id fun ⟨hnone, hfar⟩ => ⟨hnone, fun y hy _ z hz hle => ?_⟩
  have hlt := hfar y hy
  have hcursor := hz.cursor_le hd
  omega

theorem cursor_le_stop_of_first (h : nfa.Grounded) (hd : nfa.direction = .forward)
    {x z : Configuration} (hx : x.cursor ≤ stop) (hfirst : nfa.first h text stop x = some z) :
    z.cursor ≤ stop := by
  induction x using (h.wellFounded text).induction with
  | _ x ih =>
    by_cases haccept : nfa.state x.state = .accept
    · rw [first_of_accept h haccept] at hfirst
      obtain rfl := Option.some.inj hfirst
      exact hx
    · rw [first_eq_findSome? h haccept] at hfirst
      obtain ⟨y, hy, hyz⟩ := List.exists_of_findSome?_eq_some hfirst
      refine ih y (stepOrder_of_mem_steps hy) ?_ hyz
      rcases mem_steps hy with ⟨_, _, _, _, hread, hlt, _⟩ | ⟨hcursor, _⟩
      · rw [hd] at hread
        simp only [Text.read, Option.map_eq_some_iff, Prod.mk.injEq] at hread
        obtain ⟨_, -, -, hnext⟩ := hread
        have := hlt hd
        omega
      · rw [hcursor]
        exact hx

/-- A search with a limit finds the end of the preferred path within it. -/
theorem exists_prefersWithin_iff (h : nfa.Grounded) (hd : nfa.direction = .forward)
    (hstop : stop ≤ text.size) {x z : Configuration} (hx : x.cursor ≤ stop) :
    (∃ choices, nfa.PrefersWithin text stop x choices z) ↔ nfa.first h text stop x = some z := by
  have hlimits := limits_cursor hd hstop
  have hprefers : ∀ y, nfa.first h text stop x = some y →
      ∃ choices, nfa.PrefersWithin text stop x choices y := by
    intro y hy
    obtain ⟨choices, hpath, hleast⟩ := exists_least_of_first h hlimits hy
    exact ⟨choices, hpath, cursor_le_stop_of_first h hd hx hy, hleast⟩
  refine ⟨fun ⟨choices, hpath⟩ => ?_, hprefers z⟩
  cases hfirst : nfa.first h text stop x with
  | none =>
    exact absurd hpath.le_stop (not_counts_of_first_eq_none h hlimits hfirst hpath.accepts)
  | some y =>
    obtain ⟨others, hpath'⟩ := hprefers y hfirst
    rw [hpath'.unique hpath]

theorem first_eq_none_iff (h : nfa.Grounded) (hd : nfa.direction = .forward)
    (hstop : stop ≤ text.size) {x : Configuration} (hx : x.cursor ≤ stop) :
    nfa.first h text stop x = none ↔
      ∀ choices z, nfa.Accepts text x choices z → stop < z.cursor := by
  constructor
  · intro hfirst choices z hpath
    exact Nat.lt_of_not_le (not_counts_of_first_eq_none h (limits_cursor hd hstop) hfirst hpath)
  · intro hfar
    cases hfirst : nfa.first h text stop x with
    | none => rfl
    | some z =>
      obtain ⟨choices, hpath⟩ := (exists_prefersWithin_iff h hd hstop hx).mpr hfirst
      exact absurd hpath.le_stop (Nat.not_le_of_lt (hfar _ _ hpath.accepts))

end Nfa

/-- The simulation leaves the captures of the leftmost path, and it finds nothing where every path
reads a unit from the limit on. -/
theorem Nfa.findSlots_iff_leftmostPath {s : Source} {p : Pattern} {q : NumberedPattern}
    {config : Config} {nfa : Nfa} (hparse : s.parse = .ok p)
    (hnumber : NumberedPattern.number { p with } = .ok q)
    (hbuild : Nfa.build q config .forward = .ok nfa) (text : Text) {start stop : Nat}
    (hstart : start ≤ stop) (hstop : stop ≤ text.size) (anchored : Bool) :
    (∀ slots, nfa.findSlots text start stop anchored = some slots ↔
      ∃ i choices z, nfa.LeftmostPath text start stop anchored i choices z ∧
        z.thread.slots = slots) ∧
    (nfa.findSlots text start stop anchored = none ↔
      ∀ i choices z, start ≤ i → (anchored = true → i = start) →
        nfa.Accepts text ⟨i, Thread.initial nfa⟩ choices z → stop < z.cursor) := by
  have hcompiled := Source.compiled_of_build hparse hnumber hbuild
  have hgrounded := hcompiled.realizes.grounded
  have hd := hcompiled.direction
  rw [Nfa.findSlots_eq hgrounded hd (by omega), Nat.min_eq_left hstop]
  have hnone : ∀ i, i ≤ stop → (nfa.threadSlots hgrounded text stop i (Thread.initial nfa) = none ↔
      ∀ choices z, nfa.Accepts text ⟨i, Thread.initial nfa⟩ choices z → stop < z.cursor) := by
    intro i hi
    rw [Nfa.threadSlots, Option.map_eq_none_iff]
    exact Nfa.first_eq_none_iff hgrounded hd hstop hi
  refine ⟨fun slots => ?_, ?_⟩
  · rw [Nfa.findSome?_attempts_eq_some_iff hstart]
    constructor
    · rintro ⟨i, hle, hi, hanchored, hslots, hearlier⟩
      obtain ⟨z, hz, rfl⟩ := Option.map_eq_some_iff.mp hslots
      obtain ⟨choices, hpath⟩ := (Nfa.exists_prefersWithin_iff hgrounded hd hstop hi).mpr hz
      refine ⟨i, choices, z, ⟨hle, hanchored, hpath, fun j others y hj hlt => ?_⟩, rfl⟩
      exact (hnone j (by omega)).mp (hearlier j hj hlt) others y
    · rintro ⟨i, choices, z, hpath, rfl⟩
      have hi : i ≤ stop := Nat.le_trans (hpath.prefers.accepts.cursor_le hd) hpath.prefers.le_stop
      have hz := (Nfa.exists_prefersWithin_iff hgrounded hd hstop hi).mp ⟨choices, hpath.prefers⟩
      refine ⟨i, hpath.start_le, hi, hpath.anchored, by rw [Nfa.threadSlots, hz]; rfl, ?_⟩
      exact fun j hj hlt => (hnone j (by omega)).mpr fun others y => hpath.earlier j others y hj hlt
  · rw [List.findSome?_eq_none_iff]
    constructor
    · intro hall i choices z hle hanchored hpath
      by_cases hi : i ≤ stop
      · have hmem := (Nfa.mem_attempts hstart).mpr ⟨hle, hi, hanchored⟩
        exact (hnone i hi).mp (hall i hmem) _ _ hpath
      · exact Nat.lt_of_lt_of_le (Nat.lt_of_not_le hi) (hpath.cursor_le hd)
    · intro hfar i hmem
      obtain ⟨hle, hi, hanchored⟩ := (Nfa.mem_attempts hstart).mp hmem
      exact (hnone i hi).mpr fun choices z => hfar i choices z hle hanchored

/-- In front of the third unit of `xab` the leftmost path of `(a|b)+` reads one unit. -/
theorem Nfa.findSlots_iff_leftmostPath_limit :
    ∃ p q nfa, Source.parse ⟨"(a|b)+", {}, {}⟩ = .ok p ∧
      NumberedPattern.number { p with } = .ok q ∧ Nfa.build q {} .forward = .ok nfa ∧
      ∃ i choices z, nfa.LeftmostPath #[120, 97, 98] 0 2 false i choices z ∧
        z.thread.slots = #[1, 2, 1, 2] := by
  let text : Text := #[120, 97, 98]
  let p : Pattern :=
    ⟨.one (.cons (.group (some 1) (some ⟨1, none, true⟩)
      (.more (.cons (.unit (.single 97)) .nil) (.one (.cons (.unit (.single 98)) .nil)))) .nil),
      {}, 2, [], 0⟩
  have hparse : Source.parse ⟨"(a|b)+", {}, {}⟩ = .ok p := by cbv
  have hok : ((Nfa.build ⟨p, true⟩ {} .forward).toOption.any fun nfa =>
      decide (nfa.findSlots text 0 2 false = some #[1, 2, 1, 2])) = true := by cbv
  obtain ⟨nfa, hbuild, hok⟩ := exists_eq_ok_of_any hok
  have hstop : 2 ≤ text.size := by decide
  have hpath := Nfa.findSlots_iff_leftmostPath hparse (q := ⟨p, true⟩) rfl hbuild text
    (Nat.zero_le 2) hstop false
  exact ⟨p, ⟨p, true⟩, nfa, hparse, rfl, hbuild, (hpath.1 _).mp (of_decide_eq_true hok)⟩

end UnitRegex
