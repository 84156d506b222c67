import UnitRegex.Proofs.Table.ForwardKeys

/-!
The forward table. Every key of it is sound, since its number bounds how many units were read on the
way to it, and a walk by the table finds the end that its first key stands for.
-/

namespace UnitRegex

namespace ForwardSubset

variable {nfa : Nfa} {text : Text} {floor start cursor d : Nat} {key : ForwardSubset}

theorem sound_ofStart (ht : nfa.Trackable) (d : Nat) {state : Nat}
    (hstate : state ∈ nfa.anchored ++ nfa.unanchored) (atStart : Bool) :
    ∀ e ∈ (ofStart nfa state atStart).entries, e.Sound nfa d := by
  intro e he
  exact (Reached.ensures_sound ht d).add (by simp)
    ⟨⟨by simp, by simp⟩, ht.looksFit state hstate atStart⟩ e (List.mem_reverse.mp he)

/-- The place behind the unit of a thread. -/
theorem sound_of_thread (ht : nfa.Trackable) (hd : d < 65535) {state next : Nat} {set : CharSet}
    {counts : List Nat} {looks looks' : List OpenLook} {u : CodeUnit}
    (hthread : Entry.Sound nfa d (.thread state counts looks))
    (hs : nfa.state state = .unit set next)
    (hafter : OpenLook.allAfter? nfa u looks = some looks') :
    ForwardPlace.Sound nfa false (d + 1) ⟨next, false, counts, looks'⟩ := by
  -- What is left of a look-ahead does not depend on the text around the unit.
  have hu : (#[u] : Text)[0]? = some u := rfl
  obtain ⟨⟨set', next', hs', hfit⟩, hlooks⟩ := hthread
  obtain ⟨-, rfl⟩ := NfaState.unit.inj (hs.symm.trans hs')
  exact ⟨⟨((OpenLook.allAfter?_spec ht.fewBranches hlooks hd hu).1 looks' hafter).1, by simp⟩, hfit⟩

theorem sound_after (ht : nfa.Trackable) (hd : d < 65535)
    (hsound : ∀ e ∈ key.entries, e.Sound nfa d) (u : CodeUnit) :
    ∀ e ∈ (after nfa key u).entries, e.Sound nfa (d + 1) := by
  -- What is left of a look-ahead does not depend on the text around the unit.
  have hu : (#[u] : Text)[0]? = some u := rfl
  intro e he
  refine Reached.forall_mem_addAllAfter (Reached.ensures_sound ht (d + 1))
    (fun state counts looks set next looks' hmem hs hafter => ?_)
    (fun delay looks looks' hmem hafter => ?_) (by simp) e (List.mem_reverse.mp he)
  · exact sound_of_thread ht hd (hsound _ hmem) hs hafter
  · obtain ⟨hdelay, hlooks⟩ := hsound _ hmem
    refine ⟨?_, ((OpenLook.allAfter?_spec ht.fewBranches hlooks hd hu).1 looks' hafter).1⟩
    rw [OpenLook.toNat_add_one hdelay hd]
    omega

/-- Counters of a key count at most the units that were read on the way to it. -/
theorem sound_of_reaches (ht : nfa.Trackable)
    (h : (powerset nfa).Reaches (initial nfa) d key) (hd : d ≤ 65535) :
    ∀ e ∈ key.entries, e.Sound nfa d := by
  induction h with
  | start hkey =>
    obtain ⟨entries, hentries, hkey⟩ := List.mem_flatMap.mp hkey
    have hmem : ∀ s ∈ entries, s ∈ nfa.anchored ++ nfa.unanchored := by
      intro s hs
      rcases List.mem_pair.mp hentries with rfl | rfl
      · exact List.mem_append_left _ hs
      · exact List.mem_append_right _ hs
    rcases List.mem_append.mp hkey with hkey | hkey
    · obtain ⟨s, hs, rfl⟩ := List.mem_map.mp hkey
      exact sound_ofStart ht 0 (hmem s hs) false
    · obtain ⟨s, hs, rfl⟩ := List.mem_map.mp hkey
      exact sound_ofStart ht 0 (hmem s (List.mem_of_mem_take hs)) true
  | read _ u _ ih => exact sound_after ht (by omega) (ih (by omega)) u

theorem fits_after (ht : nfa.Trackable) (hd : d < 65535)
    (hsound : ∀ e ∈ key.entries, e.Sound nfa d) (hfits : key.Fits nfa text floor start cursor)
    {u : CodeUnit} (hu : text[cursor]? = some u) :
    (key.after nfa u).Fits nfa text floor start (cursor + 1) where
  floor_le := Nat.le_succ_of_le hfits.floor_le
  far := hfits.far
  tracks hthread := by
    have hbefore : key.entries.any Entry.isThread = true := by
      by_contra hnone
      have hnone : ∀ e ∈ key.entries, e.isThread = false := by simpa using hnone
      obtain ⟨e, he, hthread⟩ := List.any_eq_true.mp hthread
      have hnot := (Reached.addAllAfter_of_no_thread hnone [] (r := {}) (by simp)).2 e
        (List.mem_reverse.mp he)
      simp [hnot] at hthread
    have htracks := (hfits.tracks hbefore).after ht.numberable hfits.floor_le hu
    have hprogress : (key.after nfa u).progress = key.progress.after nfa u := if_pos hthread
    rwa [hprogress]
  ready e he := by
    refine Reached.forall_mem_addAllAfter (Reached.ensures_ready ht start (cursor + 1))
      (fun state counts looks set next looks' hmem hs hafter => ?_)
      (fun _ _ _ _ _ => trivial) (by simp) e (List.mem_reverse.mp he)
    exact ⟨⟨d + 1, sound_of_thread ht hd (hsound _ hmem) hs hafter⟩, (hfits.ready _ hmem).read hs⟩

theorem stop?_of_dead (h : nfa.Grounded) (hdead : (powerset nfa).dead key = true) :
    key.stop? h text cursor = none := by
  obtain ⟨hentries, hconfirmed⟩ : key.entries = [] ∧ key.confirmed = none := by
    simpa [powerset] using hdead
  rw [stop?, hentries, hconfirmed]
  rfl

/-- At the end of the text an entry stands for a match that counts there. -/
theorem stop?_entry_size (ht : nfa.Trackable) {e : Entry} (he : e.Sound nfa d) :
    e.stop? ht.grounded text text.size =
      (endDelay? e).map fun delay => text.size - delay.toNat := by
  cases e with
  | thread state counts looks =>
    obtain ⟨⟨set, next, hs, -⟩, -⟩ := he
    rw [Entry.stop?, ForwardPlace.stop?,
      Nfa.stopFrom_of_unit (a := (state, counts)) ht.grounded ht.direction hs]
    simp [endDelay?]
  | unconfirmed delay looks =>
    rw [Entry.stop?, ForwardPlace.allHold_size he.2, endDelay?]
    split <;> rfl
  | atEnd => simp [Entry.stop?, endDelay?]

theorem findSome?_stop?_size (ht : nfa.Trackable) {entries : List Entry}
    (hsound : ∀ e ∈ entries, e.Sound nfa d) :
    entries.findSome? (Entry.stop? ht.grounded text text.size) =
      (entries.findSome? endDelay?).map fun delay => text.size - delay.toNat := by
  induction entries with
  | nil => rfl
  | cons e rest ih =>
    rw [List.findSome?_cons, List.findSome?_cons, stop?_entry_size ht (hsound e (by simp)),
      ih fun a ha => hsound a (by simp [ha])]
    cases endDelay? e <;> rfl

/-- A key that fits its position stands for the end of what follows it, or for a match that counts
at the end of the text, or for the match that was confirmed. -/
theorem stop?_eq (ht : nfa.Trackable) (hd : d < 65535) (hsound : ∀ e ∈ key.entries, e.Sound nfa d)
    (hfits : key.Fits nfa text floor start cursor) (hcursor : cursor ≤ text.size) :
    key.stop? ht.grounded text cursor =
      (text[cursor]?.bind fun u => (key.after nfa u).stop? ht.grounded text (cursor + 1)).or
        (Dfa.endAt? text key.acceptance cursor) := by
  by_cases hlt : cursor < text.size
  · have hu : text[cursor]? = some text[cursor] := by simp
    rw [hu, Option.bind_some, stop?_after ht hd hu hsound hfits, stop?, Dfa.endAt?,
      if_neg (by omega), acceptance]
    cases key.confirmed <;> rfl
  · obtain rfl : cursor = text.size := by omega
    rw [Array.getElem?_eq_none (Nat.le_refl _), Option.bind_none, Option.none_or, stop?,
      findSome?_stop?_size ht hsound, Dfa.endAt?, acceptance]
    cases key.entries.findSome? endDelay? <;> cases key.confirmed <;> simp

/-- A step of the walk by the forward table. -/
theorem endsBy (ht : nfa.Trackable) {dfa : Dfa} {keys : Array ForwardSubset}
    (htable : (powerset nfa).Tabulates (initial nfa) dfa keys) (text : Text) (floor start : Nat) :
    Dfa.EndsBy (powerset nfa) keys text (fun key cursor => key.Fits nfa text floor start cursor)
      (fun key cursor => key.stop? ht.grounded text cursor) := by
  have hsound : ∀ (i : Nat) (key : ForwardSubset), keys[i]? = some key →
      ∃ d < 65535, ∀ e ∈ key.entries, e.Sound nfa d := by
    intro i key hkey
    obtain ⟨hlt, -⟩ := Array.getElem?_eq_some_iff.mp hkey
    obtain ⟨d, hd, hreaches⟩ := htable.reaches i key hkey
    have := htable.few
    exact ⟨d, by omega, sound_of_reaches ht hreaches (by omega)⟩
  refine ⟨fun i key cursor u hkey hfits hu => ?_, fun i key cursor hkey hfits hcursor => ?_⟩
  · obtain ⟨d, hd, hkeySound⟩ := hsound i key hkey
    exact fits_after ht hd hkeySound hfits hu
  · obtain ⟨d, hd, hkeySound⟩ := hsound i key hkey
    exact stop?_eq ht hd hkeySound hfits hcursor

/-- Two units that the live branches of a look-ahead do not tell apart. -/
theorem after_look_congr {p : OpenLook} {c c' : CodeUnit}
    (h : ∀ s ∈ p.nextSets nfa, s.contains c = s.contains c') : p.after nfa c = p.after nfa c' := by
  have hsurvivors : p.survivors nfa c = p.survivors nfa c' := by
    refine List.filter_congr fun b hb => ?_
    cases hget : b.1[p.read.toNat]? with
    | none => rfl
    | some set => exact h set (List.mem_filterMap.mpr ⟨b, hb, hget⟩)
  rw [OpenLook.after_eq, OpenLook.after_eq, hsurvivors]

theorem allAfter?_congr {looks : List OpenLook} {c c' : CodeUnit}
    (h : ∀ s ∈ looks.flatMap (·.nextSets nfa), s.contains c = s.contains c') :
    OpenLook.allAfter? nfa c looks = OpenLook.allAfter? nfa c' looks := by
  induction looks with
  | nil => rfl
  | cons p rest ih =>
    rw [List.flatMap_cons] at h
    rw [OpenLook.allAfter?, OpenLook.allAfter?,
      after_look_congr fun s hs => h s (List.mem_append_left _ hs),
      ih fun s hs => h s (List.mem_append_right _ hs)]

theorem progress_congr {progress : Progress} {c c' : CodeUnit}
    (h : ∀ s ∈ nfa.lookBehinds.flatten, s.contains c = s.contains c') :
    progress.after nfa c = progress.after nfa c' := by
  have hbody : ∀ (sets : List CharSet) (body : Nat), sets ∈ nfa.lookBehinds →
      progress.bodyAfter c sets body = progress.bodyAfter c' sets body := by
    intro sets body hsets
    unfold Progress.bodyAfter
    dsimp only
    congr 1
    refine List.filter_congr fun n _ => ?_
    cases hget : sets[n]? with
    | none => rfl
    | some set => exact h set (List.mem_flatten.mpr ⟨sets, hsets, List.mem_of_getElem? hget⟩)
  unfold Progress.after
  congr 2
  refine List.flatMap_congr fun b hb => ?_
  exact hbody b.1 b.2 (List.mem_of_getElem? (List.mem_zipIdx_iff_getElem?.mp hb))

/-- The forward subsets look at a unit only through their sets. -/
theorem respects (nfa : Nfa) : (powerset nfa).Respects := by
  intro key c c' h
  have h : ∀ s ∈ nextSets nfa key, s.contains c = s.contains c' := h
  rw [nextSets] at h
  have hentry : ∀ (progress : Progress) (r : Reached) (e : Entry), e ∈ key.entries →
      r.addAfter nfa progress c e = r.addAfter nfa progress c' e := by
    intro progress r e he
    have hsets := fun s hs => h s (List.mem_append_left _ (List.mem_flatMap.mpr ⟨e, he, hs⟩))
    cases e with
    | thread state counts looks =>
      cases hs : nfa.state state <;> simp only [Reached.addAfter, hs]
      case unit set next =>
        simp only [hs] at hsets
        rw [hsets set (by simp), allAfter?_congr fun s hs => hsets s (List.mem_append_right _ hs)]
    | unconfirmed delay looks => rw [Reached.addAfter, Reached.addAfter, allAfter?_congr hsets]
    | atEnd => rfl
  have hall : ∀ (progress : Progress) (entries : List Entry), (∀ e ∈ entries, e ∈ key.entries) →
      ∀ r : Reached,
        r.addAllAfter nfa progress c entries = r.addAllAfter nfa progress c' entries := by
    intro progress entries hentries
    induction entries with
    | nil => exact fun _ => rfl
    | cons e rest ih =>
      intro r
      rw [Reached.addAllAfter, Reached.addAllAfter, hentry progress r e (hentries e (by simp))]
      split
      · rfl
      · exact ih (fun a ha => hentries a (by simp [ha])) _
  show key.after nfa c = key.after nfa c'
  rw [after, after]
  by_cases hthread : key.entries.any Entry.isThread = true
  · have hprogress : key.progress.after nfa c = key.progress.after nfa c' :=
      progress_congr fun s hs => h s (List.mem_append_right _ (by rwa [if_pos hthread]))
    rw [hprogress, hall _ _ (fun e he => he)]
  · have hnone : ∀ e ∈ key.entries, e.isThread = false := by simpa using hthread
    have hdrop : ∀ (progress : Progress) (u : CodeUnit),
        (Reached.addAllAfter nfa progress u {} key.entries).toSubset progress =
          (Reached.addAllAfter nfa [] u {} key.entries).toSubset [] := by
      intro progress u
      obtain ⟨hsame, hafter⟩ : Reached.addAllAfter nfa progress u {} key.entries = _ ∧ _ :=
        Reached.addAllAfter_of_no_thread hnone [] (by simp)
      have hany : (Reached.addAllAfter nfa progress u {} key.entries).entries.reverse.any
          Entry.isThread = false := by
        rw [List.any_eq_false]
        exact fun e he => by simp [hafter e (List.mem_reverse.mp he)]
      rw [Reached.toSubset, Reached.toSubset, ← hsame, hany]
      rfl
    rw [hdrop _ c, hdrop _ c', hall _ _ (fun e he => he)]

end ForwardSubset

end UnitRegex
