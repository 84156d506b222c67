import UnitRegex.Proofs.Search.Explored
import UnitRegex.Proofs.Table.Tabulated

/-!
Walks over a text by a table. What a walk reports is a value of the key that its state stands for,
which satisfies the equation of one step, and passing over a run of units at once does not change
it: on the way the state reports nothing that it does not report again at the end of the run.
-/

namespace UnitRegex

theorem Text.passForward_spec (text : Text) (r : Interval) {cursor : Nat}
    (hcursor : cursor ≤ text.size) :
    cursor ≤ text.passForward r cursor ∧ text.passForward r cursor ≤ text.size ∧
      ∀ i, cursor ≤ i → i < text.passForward r cursor → ∃ u, text[i]? = some u ∧ u ∈ r := by
  induction h : text.size - cursor using Nat.strongRecOn generalizing cursor with
  | _ n ih =>
    unfold passForward
    split
    · rename_i hlt
      split
      · rename_i hmem
        obtain ⟨hle, hsize, hall⟩ := ih (text.size - (cursor + 1)) (by omega) (by omega) rfl
        refine ⟨by omega, hsize, fun i hi hstop => ?_⟩
        by_cases heq : i = cursor
        · subst heq
          exact ⟨text[i], by simp [hlt], hmem⟩
        · exact hall i (by omega) hstop
      · exact ⟨Nat.le_refl _, hcursor, fun i hi hstop => by omega⟩
    · exact ⟨Nat.le_refl _, hcursor, fun i hi hstop => by omega⟩

theorem Text.passBackward_spec (text : Text) (r : Interval) {floor cursor : Nat}
    (hfloor : floor ≤ cursor) :
    floor ≤ text.passBackward r floor cursor ∧
      ∀ i, text.passBackward r floor cursor ≤ i → i < cursor →
        ∃ u, text[i]? = some u ∧ u ∈ r := by
  induction cursor with
  | zero => exact ⟨hfloor, fun i _ hi => by omega⟩
  | succ cursor ih =>
    unfold passBackward
    split
    · rename_i h
      obtain ⟨u, hu, hmem⟩ := (Option.any_eq_true _ _).mp h.2
      obtain ⟨hle, hall⟩ := ih (by omega)
      refine ⟨hle, fun i hi hlt => ?_⟩
      by_cases heq : i = cursor
      · subst heq
        exact ⟨u, hu, by simpa using hmem⟩
      · exact hall i hi (by omega)
    · exact ⟨hfloor, fun i hi hlt => by omega⟩

namespace Dfa

variable {κ : Type} {view : Powerset κ} {initial : List κ} {dfa : Dfa} {keys : Array κ}
  {text : Text} {fits : κ → Nat → Prop} {val : κ → Nat → Option Nat}

/-- The equation of one step to the right, for keys that fit their positions: what comes later
replaces what is reported here. -/
structure EndsBy (view : Powerset κ) (keys : Array κ) (text : Text) (fits : κ → Nat → Prop)
    (val : κ → Nat → Option Nat) : Prop where
  step : ∀ (i : Nat) (key : κ) (cursor : Nat) (u : CodeUnit), keys[i]? = some key →
    fits key cursor → text[cursor]? = some u → fits (view.after key u) (cursor + 1)
  val_eq : ∀ (i : Nat) (key : κ) (cursor : Nat), keys[i]? = some key → fits key cursor →
    cursor ≤ text.size →
    val key cursor = (text[cursor]?.bind fun u => val (view.after key u) (cursor + 1)).or
      (endAt? text (view.acceptance key) cursor)

theorem isSome_endAt? {a : Acceptance} {cursor stop : Nat}
    (h : (endAt? text a cursor).isSome) (hle : cursor ≤ stop) (hstop : stop ≤ text.size) :
    (endAt? text a stop).isSome := by
  unfold endAt? at h ⊢
  split at h
  · rename_i hedge
    rw [if_pos ⟨by omega, hedge.2⟩]
    rfl
  · split at h
    · rename_i hany
      split
      · rfl
      · rfl
    · simp at h

/-- What is reported while a loop is passed is reported again at its end. -/
theorem EndsBy.pass (hval : EndsBy view keys text fits val) {i : Nat}
    {key : κ} (hkey : keys[i]? = some key) {cursor stop : Nat} (hle : cursor ≤ stop)
    (hstop : stop ≤ text.size)
    (hpass : ∀ j, cursor ≤ j → j < stop → ∃ u, text[j]? = some u ∧ view.after key u = key)
    (hfits : fits key cursor) (last : Option Nat) :
    fits key stop ∧ (val key cursor).or last =
      (val key stop).or ((endAt? text (view.acceptance key) cursor).or last) := by
  have hstay : ∀ j, cursor ≤ j → j ≤ stop → fits key j := by
    intro j hj
    induction j, hj using Nat.le_induction with
    | base => exact fun _ => hfits
    | succ j hj ih =>
      intro hlt
      obtain ⟨u, hu, hafter⟩ := hpass j hj hlt
      exact hafter ▸ hval.step i key j u hkey (ih (by omega)) hu
  refine ⟨hstay stop hle (Nat.le_refl _), ?_⟩
  have habsorb : ∀ j ≤ stop, ∀ rest,
      (val key stop).or ((endAt? text (view.acceptance key) j).or rest) =
        (val key stop).or rest := by
    intro j hj rest
    cases hend : endAt? text (view.acceptance key) j with
    | none => rfl
    | some e =>
      have hsome : (val key stop).isSome := by
        rw [hval.val_eq i key stop hkey (hstay stop hle (Nat.le_refl _)) hstop, Option.isSome_or,
          isSome_endAt? (by simp [hend]) hj hstop, Bool.or_true]
      rw [Option.or_of_isSome hsome, Option.or_of_isSome hsome]
  induction h : stop - cursor generalizing cursor last with
  | zero =>
    obtain rfl : cursor = stop := by omega
    exact (habsorb cursor (Nat.le_refl _) last).symm
  | succ n ih =>
    obtain ⟨u, hu, hafter⟩ := hpass cursor (Nat.le_refl _) (by omega)
    rw [hval.val_eq i key cursor hkey hfits (by omega), hu, Option.bind_some, hafter,
      Option.or_assoc, ih (by omega) (fun j hj hlt => hpass j (by omega) hlt)
        (hstay _ (Nat.le_succ _) (by omega)) _ (fun j hj => hstay j (by omega)) (by omega)]
    exact habsorb (cursor + 1) (by omega) _

/-- A walk to the right finds the value of its key, or what was known before. -/
theorem endFrom_eq
    (hstates : ∀ i key, keys[i]? = some key → view.Represents keys key (dfa.state i))
    (hdead : ∀ key cursor, view.dead key = true → val key cursor = none)
    (hval : EndsBy view keys text fits val) {i : Nat} {key : κ} (hkey : keys[i]? = some key)
    {cursor : Nat} (hcursor : cursor ≤ text.size) (hfits : fits key cursor) (last : Option Nat) :
    dfa.endFrom text (dfa.state i) cursor last = (val key cursor).or last := by
  induction h : text.size - cursor using Nat.strongRecOn generalizing i key cursor last with
  | _ n ih =>
    have hstate := hstates i key hkey
    unfold endFrom
    rw [hstate.acceptance]
    dsimp only
    split
    · rename_i hlt
      have hu : text[cursor]? = some text[cursor] := by simp [hlt]
      have hstep : (val key cursor).or last = (val (view.after key text[cursor]) (cursor + 1)).or
          ((endAt? text (view.acceptance key) cursor).or last) := by
        rw [hval.val_eq i key cursor hkey hfits hcursor, hu, Option.bind_some, Option.or_assoc]
      have hread : ∀ j, (dfa.state i).next text[cursor] = some j →
          dfa.endFrom text (dfa.state j) (cursor + 1)
            ((endAt? text (view.acceptance key) cursor).or last) = (val key cursor).or last := by
        intro j hnext
        rw [hstep]
        exact ih _ (by omega) (hstate.next_some _ j hnext).2 (by omega)
          (hval.step i key cursor _ hkey hfits hu) _ rfl
      have hend : (dfa.state i).next text[cursor] = none →
          (endAt? text (view.acceptance key) cursor).or last = (val key cursor).or last := by
        intro hnext
        rw [hstep, hdead _ _ (hstate.next_none _ hnext), Option.none_or]
      split
      · rename_i r hloop
        obtain ⟨hle, hsize, hall⟩ := text.passForward_spec r hcursor
        split
        · obtain ⟨hfits', hpass⟩ := hval.pass hkey hle hsize (fun j hj hjs => by
            obtain ⟨u, hu, hmem⟩ := hall j hj hjs
            exact ⟨u, hu, hstate.loop r u hloop hmem⟩) hfits last
          rw [ih _ (by omega) hkey hsize hfits' _ rfl, hpass]
        · split
          · exact hread _ ‹_›
          · exact hend ‹_›
      · rw [if_neg (Nat.lt_irrefl cursor)]
        split
        · exact hread _ ‹_›
        · exact hend ‹_›
    · rename_i hge
      have hu : text[cursor]? = none := by simp; omega
      rw [hval.val_eq i key cursor hkey hfits hcursor, hu, Option.bind_none, Option.none_or]

theorem lastEnd?_eq (ht : view.Tabulates initial dfa keys)
    (hdead : ∀ key cursor, view.dead key = true → val key cursor = none)
    (hval : EndsBy view keys text fits val) {i : Nat} {key : κ} (hkey : initial[i]? = some key)
    {cursor : Nat} (hcursor : cursor ≤ text.size) (hfits : fits key cursor) :
    dfa.lastEnd? text (dfa.entry i) cursor = val key cursor := by
  rw [lastEnd?, endFrom_eq ht.state hdead hval (ht.entry i key hkey) hcursor hfits, Option.or_none]

variable {α : Type}

/-- The equation of one step to the left: what comes later replaces what is reported here. -/
def StartsBy (view : Powerset κ) (keys : Array κ) (text : Text) (floor : Nat)
    (report : κ → Nat → Option α) (val : κ → Nat → Option (Nat × α)) : Prop :=
  ∀ (i : Nat) (key : κ) (cursor : Nat), keys[i]? = some key → floor ≤ cursor →
    cursor ≤ text.size →
    val key cursor = (if floor < cursor then
        text[cursor - 1]?.bind fun u => val (view.after key u) (cursor - 1)
      else none).or ((report key cursor).map fun a => (cursor, a))

theorem StartsBy.pass {floor : Nat} {report : κ → Nat → Option α}
    {val : κ → Nat → Option (Nat × α)} (hval : StartsBy view keys text floor report val)
    (hreport : ∀ key i j, i ≤ j → (report key j).isSome → (report key i).isSome) {i : Nat}
    {key : κ} (hkey : keys[i]? = some key) {cursor stop : Nat} (hle : stop ≤ cursor)
    (hfloor : floor ≤ stop) (hcursor : cursor ≤ text.size)
    (hpass : ∀ j, stop ≤ j → j < cursor → ∃ u, text[j]? = some u ∧ view.after key u = key)
    (best : Option (Nat × α)) :
    (val key cursor).or best =
      (val key stop).or (((report key cursor).map fun a => (cursor, a)).or best) := by
  have habsorb : ∀ j, stop ≤ j → ∀ rest,
      (val key stop).or (((report key j).map fun a => (j, a)).or rest) =
        (val key stop).or rest := by
    intro j hj rest
    cases hend : report key j with
    | none => rfl
    | some e =>
      have hsome : (val key stop).isSome := by
        rw [hval i key stop hkey hfloor (by omega), Option.isSome_or, Option.isSome_map,
          hreport key stop j hj (by simp [hend]), Bool.or_true]
      rw [Option.or_of_isSome hsome, Option.or_of_isSome hsome]
  induction h : cursor - stop generalizing cursor best with
  | zero =>
    obtain rfl : cursor = stop := by omega
    exact (habsorb cursor (Nat.le_refl _) best).symm
  | succ n ih =>
    obtain ⟨u, hu, hafter⟩ := hpass (cursor - 1) (by omega) (by omega)
    rw [hval i key cursor hkey (by omega) hcursor, if_pos (by omega), hu, Option.bind_some, hafter,
      Option.or_assoc,
      ih (by omega) (by omega) (fun j hj hlt => hpass j hj (by omega)) _ (by omega)]
    exact habsorb (cursor - 1) (by omega) _

/-- A walk to the left finds the value of its key, or what was known before. -/
theorem walkBack_eq
    (hstates : ∀ i key, keys[i]? = some key → view.Represents keys key (dfa.state i))
    {report : TableState → Nat → Option α} {reportKey : κ → Nat → Option α}
    {val : κ → Nat → Option (Nat × α)} {floor : Nat}
    (hsame : ∀ key s cursor, view.Represents keys key s → report s cursor = reportKey key cursor)
    (hreport : ∀ key i j, i ≤ j → (reportKey key j).isSome → (reportKey key i).isSome)
    (hdead : ∀ key cursor, view.dead key = true → val key cursor = none)
    (hval : StartsBy view keys text floor reportKey val) {i : Nat} {key : κ}
    (hkey : keys[i]? = some key) {cursor : Nat} (hfloor : floor ≤ cursor)
    (hcursor : cursor ≤ text.size) (best : Option (Nat × α)) :
    dfa.walkBack text report floor (dfa.state i) cursor best = (val key cursor).or best := by
  induction cursor using Nat.strongRecOn generalizing i key best with
  | _ cursor ih =>
    have hstate := hstates i key hkey
    unfold walkBack
    rw [hsame key _ cursor hstate]
    dsimp only
    split
    · rename_i hmove
      have hu : text[cursor - 1]? = some text[cursor - 1] := by simp
      have hstep : (val key cursor).or best =
          (val (view.after key text[cursor - 1]) (cursor - 1)).or
            (((reportKey key cursor).map fun a => (cursor, a)).or best) := by
        rw [hval i key cursor hkey hfloor hcursor, if_pos (by omega), hu, Option.bind_some,
          Option.or_assoc]
      have hread : ∀ j, text[cursor - 1]?.bind (dfa.state i).next = some j →
          dfa.walkBack text report floor (dfa.state j) (cursor - 1)
            (((reportKey key cursor).map fun a => (cursor, a)).or best) =
            (val key cursor).or best := by
        intro j hnext
        rw [hu, Option.bind_some] at hnext
        rw [hstep]
        exact ih _ (by omega) (hstate.next_some _ j hnext).2 (by omega) (by omega) _
      have hend : text[cursor - 1]?.bind (dfa.state i).next = none →
          ((reportKey key cursor).map fun a => (cursor, a)).or best =
            (val key cursor).or best := by
        intro hnext
        rw [hu, Option.bind_some] at hnext
        rw [hstep, hdead _ _ (hstate.next_none _ hnext), Option.none_or]
      split
      · rename_i r hloop
        obtain ⟨hle, hall⟩ := text.passBackward_spec r hfloor
        split
        · rename_i hskip
          rw [ih _ hskip hkey hle (by omega)]
          refine (hval.pass hreport hkey (by omega) hle hcursor (fun j hj hjs => ?_) best).symm
          obtain ⟨u, hu, hmem⟩ := hall j hj hjs
          exact ⟨u, hu, hstate.loop r u hloop hmem⟩
        · split
          · exact hread _ ‹_›
          · exact hend ‹_›
      · rw [if_neg (Nat.lt_irrefl cursor)]
        split
        · exact hread _ ‹_›
        · exact hend ‹_›
    · rename_i hstay
      rw [hval i key cursor hkey hfloor hcursor, if_neg (by omega), Option.none_or]

/-- The smallest position from `floor` on at which something ends that began with a key. -/
def earliest (ends : κ → Nat → Nat → Option α) (floor : Nat) (key : κ) (cursor : Nat) :
    Option (Nat × α) :=
  (List.range' floor (cursor + 1 - floor)).findSome? fun i => (ends key cursor i).map (i, ·)

/-- A walk to the left finds what ends first, if what ends at a position is known of every key. -/
theorem walkBack_eq_earliest (ht : view.Tabulates initial dfa keys)
    {report : TableState → Nat → Option α} {reportKey : κ → Nat → Option α}
    {ends : κ → Nat → Nat → Option α}
    (hsame : ∀ key s cursor, view.Represents keys key s → report s cursor = reportKey key cursor)
    (hreport : ∀ key i j, i ≤ j → (reportKey key j).isSome → (reportKey key i).isSome)
    (hdead : ∀ key cursor i, view.dead key = true → ends key cursor i = none)
    (hself : ∀ (n : Nat) key cursor, keys[n]? = some key →
      ends key cursor cursor = reportKey key cursor)
    (hstep : ∀ (n : Nat) key cursor u i, keys[n]? = some key → text[cursor]? = some u →
      i ≤ cursor → ends key (cursor + 1) i = ends (view.after key u) cursor i)
    {n : Nat} {key : κ} (hkey : initial[n]? = some key) {floor cursor : Nat}
    (hfloor : floor ≤ cursor) (hcursor : cursor ≤ text.size) :
    dfa.walkBack text report floor (dfa.state (dfa.entry n)) cursor none =
      earliest ends floor key cursor := by
  have hval : StartsBy view keys text floor reportKey (earliest ends floor) := by
    intro m key cursor hkey hfloor hcursor
    have hlast : List.range' floor (cursor + 1 - floor) =
        List.range' floor (cursor - floor) ++ [cursor] := by
      rw [show cursor + 1 - floor = cursor - floor + 1 by omega, List.range'_concat,
        show floor + 1 * (cursor - floor) = cursor by omega]
    rw [earliest, hlast, List.findSome?_append, List.findSome?_singleton, hself m key cursor hkey]
    congr 1
    split
    · rename_i hlt
      have hu : text[cursor - 1]? = some text[cursor - 1] := by simp
      rw [hu, Option.bind_some, earliest, show cursor - 1 + 1 - floor = cursor - floor by omega]
      refine findSome?_congr fun i hi => ?_
      have hin := List.mem_range'_1.mp hi
      have hback := hstep m key (cursor - 1) _ i hkey hu (by omega)
      rw [show cursor - 1 + 1 = cursor by omega] at hback
      rw [hback]
    · rw [show cursor - floor = 0 by omega]
      rfl
  have hnothing : ∀ key cursor, view.dead key = true → earliest ends floor key cursor = none := by
    intro key cursor hdeadKey
    rw [earliest, List.findSome?_eq_none_iff]
    intro i _
    rw [hdead key cursor i hdeadKey, Option.map_none]
  rw [walkBack_eq ht.state hsame hreport hnothing hval (ht.entry n key hkey) hfloor hcursor,
    Option.or_none]

end Dfa

end UnitRegex
