import Mathlib.Data.List.Nodup
import UnitRegex.Proofs.Table.Matchers
import UnitRegex.Proofs.Table.Pieces

/-!
The subset construction gives every key that the initial ones lead to one state, which knows where
the key leads on every unit. Keys are numbered in the order of their first appearance, so the number
of a key is at least its distance from an initial key.
-/

namespace UnitRegex

section

variable {κ : Type}

namespace Powerset

/-- A key looks at a unit only through its sets. -/
def Respects (view : Powerset κ) : Prop :=
  ∀ key c c', (∀ s ∈ view.nextSets key, s.contains c = s.contains c') →
    view.after key c = view.after key c'

/-- Keys some units away from an initial one, over keys that are not dead. -/
inductive Reaches (view : Powerset κ) (initial : List κ) : Nat → κ → Prop
  | start {key : κ} (h : key ∈ initial) : Reaches view initial 0 key
  | read {d : Nat} {key : κ} (h : Reaches view initial d key) (c : CodeUnit)
    (hlive : view.dead (view.after key c) = false) : Reaches view initial (d + 1) (view.after key c)

/-- The shortcuts of a state agree with its matchers, of which at most one accepts a unit. -/
structure Coherent (s : TableState) : Prop where
  disjoint : s.edges.Pairwise fun e f => ∀ c, e.1.accepts c = true → f.1.accepts c = false
  next : ∀ c, s.next c = s.byEdges c
  single : ∀ only j, s.single = some (only, j) →
    ∀ c, s.byEdges c = if c = only then some j else none
  loop : ∀ r, s.loop = some r → ∀ c, c ∈ r ↔ s.next c = some s.id

/-- A state stands for a key among those with a number. -/
structure Represents (view : Powerset κ) (keys : Array κ) (key : κ) (s : TableState) : Prop where
  id : keys[s.id]? = some key
  acceptance : s.acceptance = view.acceptance key
  resultIds : s.resultIds = view.resultIds key
  next_some : ∀ c j, s.next c = some j →
    view.dead (view.after key c) = false ∧ keys[j]? = some (view.after key c)
  next_none : ∀ c, s.next c = none → view.dead (view.after key c) = true
  coherent : Coherent s

/-- A unit of the loop leads back to the key. -/
theorem Represents.loop {view : Powerset κ} {keys : Array κ} {key : κ} {s : TableState}
    (h : view.Represents keys key s) (r : Interval) (c : CodeUnit) (hr : s.loop = some r)
    (hc : c ∈ r) : view.after key c = key := by
  obtain ⟨-, hnext⟩ := h.next_some c s.id ((h.coherent.loop r hr c).mp hc)
  exact Option.some.inj (hnext.symm.trans h.id)

/-- A table whose states stand for keys. -/
structure Tabulates (view : Powerset κ) (initial : List κ) (dfa : Dfa) (keys : Array κ) :
    Prop where
  few : keys.size ≤ 32767
  size : dfa.states.size = keys.size
  distinct : keys.toList.Nodup
  reaches : ∀ i key, keys[i]? = some key → ∃ d ≤ i, view.Reaches initial d key
  entries : dfa.entries.length = initial.length
  entry : ∀ i key, initial[i]? = some key → keys[dfa.entry i]? = some key
  state : ∀ i key, keys[i]? = some key → view.Represents keys key (dfa.state i)

end Powerset

theorem getElem?_push_eq_some {keys : Array κ} {key k : κ} {i : Nat} :
    (keys.push key)[i]? = some k ↔ (i = keys.size ∧ k = key) ∨ keys[i]? = some k := by
  rw [Array.getElem?_push]
  split
  · rename_i hi
    subst hi
    simp [eq_comm]
  · rename_i hi
    simp [hi]

/-- A group of intervals tells that a unit leads to a state. -/
def Leads (groups : List (Nat × List Interval)) (c : CodeUnit) (j : Nat) : Prop :=
  ∃ g ∈ groups, g.1 = j ∧ ∃ r ∈ g.2, c ∈ r

theorem leads_addPiece {groups : List (Nat × List Interval)} {id j : Nat} {piece : Interval}
    {c : CodeUnit} :
    Leads (addPiece id piece groups) c j ↔ (j = id ∧ c ∈ piece) ∨ Leads groups c j := by
  induction groups with
  | nil => simp [addPiece, Leads, eq_comm]
  | cons g rest ih =>
    obtain ⟨s, pieces⟩ := g
    unfold addPiece
    split
    · rename_i hs
      subst hs
      simp only [Leads, List.exists_mem_cons_iff]
      constructor
      · rintro (⟨rfl, h | h⟩ | h)
        · exact .inl ⟨rfl, h⟩
        · exact .inr (.inl ⟨rfl, h⟩)
        · exact .inr (.inr h)
      · rintro (⟨rfl, h⟩ | ⟨rfl, h⟩ | h)
        · exact .inl ⟨rfl, .inl h⟩
        · exact .inl ⟨rfl, .inr h⟩
        · exact .inr h
    · simp only [Leads, List.exists_mem_cons_iff] at ih ⊢
      rw [ih]
      constructor
      · rintro (h | h | h)
        · exact .inr (.inl h)
        · exact .inl h
        · exact .inr (.inr h)
      · rintro (h | h | h)
        · exact .inr (.inl h)
        · exact .inl h
        · exact .inr (.inr h)

theorem map_fst_addPiece (id : Nat) (piece : Interval) (groups : List (Nat × List Interval)) :
    (addPiece id piece groups).map Prod.fst =
      groups.map Prod.fst ++ if id ∈ groups.map Prod.fst then [] else [id] := by
  induction groups with
  | nil => simp [addPiece]
  | cons g rest ih =>
    obtain ⟨s, pieces⟩ := g
    unfold addPiece
    split
    · rename_i hs
      simp [hs]
    · rename_i hs
      rw [List.map_cons, ih, List.map_cons, List.cons_append]
      simp only [List.mem_cons, Ne.symm hs, false_or]

theorem nodup_addPiece {groups : List (Nat × List Interval)} (h : (groups.map Prod.fst).Nodup)
    (id : Nat) (piece : Interval) : ((addPiece id piece groups).map Prod.fst).Nodup := by
  rw [map_fst_addPiece]
  split
  · rwa [List.append_nil]
  · rename_i hnew
    rw [List.nodup_append]
    exact ⟨h, List.nodup_singleton id, fun a ha b hb hab => by
      rw [List.mem_singleton.mp hb] at hab
      exact hnew (hab ▸ ha)⟩

namespace Powerset

variable {view : Powerset κ}

/-- The groups belong to different states and only tell what is true of a key. -/
structure Groups (view : Powerset κ) (key : κ) (keys : Array κ)
    (groups : List (Nat × List Interval)) : Prop where
  distinct : (groups.map Prod.fst).Nodup
  tells : ∀ c j, Leads groups c j →
    view.dead (view.after key c) = false ∧ keys[j]? = some (view.after key c)

/-- The groups tell everything about the units below a bound. -/
def Covers (view : Powerset κ) (key : κ) (groups : List (Nat × List Interval)) (bound : Nat) :
    Prop :=
  ∀ c : CodeUnit, c.toNat < bound → view.dead (view.after key c) = false → ∃ j, Leads groups c j

/-- The units that lead to a state are the members of a set, and each set has a matcher. -/
theorem leads_iff {groups : List (Nat × List Interval)} {c : CodeUnit} {j : Nat} :
    Leads groups c j ↔
      ∃ set, (j, set) ∈ groups.map (fun g => (g.1, CharSet.ofIntervals g.2)) ∧
        set.contains c = true := by
  constructor
  · rintro ⟨g, hg, rfl, hr⟩
    exact ⟨_, List.mem_map.mpr ⟨g, hg, rfl⟩, CharSet.contains_ofIntervals.mpr hr⟩
  · rintro ⟨set, hmem, hc⟩
    obtain ⟨g, hg, he⟩ := List.mem_map.mp hmem
    obtain ⟨rfl, rfl⟩ := Prod.mk.inj he
    exact ⟨g, hg, rfl, CharSet.contains_ofIntervals.mp hc⟩

theorem leads_iff_edges {id : Nat} {key : κ} {groups : List (Nat × List Interval)} {c : CodeUnit}
    {j : Nat} :
    Leads groups c j ↔
      ∃ e ∈ (view.stateOf id key groups).edges, e.2 = j ∧ e.1.accepts c = true := by
  rw [leads_iff]
  simp only [stateOf]
  constructor
  · rintro ⟨set, hmem, hc⟩
    exact ⟨_, List.mem_map.mpr ⟨_, hmem, rfl⟩, rfl, (Matcher.accepts_ofSet set c).trans hc⟩
  · rintro ⟨e, he, rfl, haccepts⟩
    obtain ⟨⟨j, set⟩, hmem, rfl⟩ := List.mem_map.mp he
    exact ⟨set, hmem, (Matcher.accepts_ofSet set c).symm.trans haccepts⟩

theorem leads_of_byEdges {id : Nat} {key : κ} {groups : List (Nat × List Interval)} {c : CodeUnit}
    {j : Nat} (h : (view.stateOf id key groups).byEdges c = some j) : Leads groups c j := by
  obtain ⟨e, he, rfl⟩ := Option.map_eq_some_iff.mp h
  have haccepts := List.find?_some he
  exact leads_iff_edges.mpr ⟨e, List.mem_of_find?_eq_some he, rfl, haccepts⟩

theorem not_leads_of_byEdges {id : Nat} {key : κ} {groups : List (Nat × List Interval)}
    {c : CodeUnit} (h : (view.stateOf id key groups).byEdges c = none) (j : Nat) :
    ¬Leads groups c j := by
  intro hleads
  obtain ⟨e, he, -, haccepts⟩ := leads_iff_edges.mp hleads
  rw [TableState.byEdges, Option.map_eq_none_iff, List.find?_eq_none] at h
  exact h e he haccepts

/-- Where the groups belong to different states, a unit leads to one of them at most. -/
theorem Groups.unique {key : κ} {keys : Array κ} {groups : List (Nat × List Interval)}
    (h : view.Groups key keys groups)
    (hdistinct : ∀ (i j : Nat) (k : κ), keys[i]? = some k → keys[j]? = some k → i = j)
    {c : CodeUnit} {i j : Nat} (hi : Leads groups c i) (hj : Leads groups c j) : i = j :=
  hdistinct i j _ (h.tells c i hi).2 (h.tells c j hj).2

/-- All units of a piece of the alphabet lead where its first one does. -/
theorem Respects.after_eq (hview : view.Respects) {key : κ} {front back : List Nat} {lo hi : Nat}
    (hbounds : pieceBounds (view.nextSets key) = front ++ lo :: hi :: back) {c : CodeUnit}
    (hc : c ∈ Interval.ofEnds (UInt16.ofNat lo) (UInt16.ofNat (hi - 1))) :
    view.after key c =
      view.after key (Interval.ofEnds (UInt16.ofNat lo) (UInt16.ofNat (hi - 1))).lo := by
  obtain ⟨hlt, hmax⟩ := lt_of_bounds hbounds
  have htogether : Together _ c _ := together_of_bounds hbounds ((mem_piece hlt hmax).mp hc)
    ((mem_piece hlt hmax).mp (Interval.lo_mem _))
  exact hview key c _ fun s hs => htogether.contains_eq hs

/-- A piece is added to the units that lead to a key. -/
theorem Groups.addPiece {key : κ} {keys keys' : Array κ} {groups : List (Nat × List Interval)}
    (h : view.Groups key keys groups)
    (hgrows : ∀ (i : Nat) (k : κ), keys[i]? = some k → keys'[i]? = some k) {j : Nat}
    {piece : Interval} (hpiece : ∀ c ∈ piece,
      view.dead (view.after key c) = false ∧ keys'[j]? = some (view.after key c)) :
    view.Groups key keys' (addPiece j piece groups) where
  distinct := nodup_addPiece h.distinct j piece
  tells c i hi := by
    rcases leads_addPiece.mp hi with ⟨rfl, hc⟩ | hold
    · exact hpiece c hc
    · exact ⟨(h.tells c i hold).1, hgrows _ _ (h.tells c i hold).2⟩

/-- Groups that tell everything below one bound do so below the next one, if they tell where the
units in between lead. -/
theorem Covers.next {key : κ} {groups groups' : List (Nat × List Interval)} {lo hi : Nat}
    (h : view.Covers key groups lo)
    (hgrows : ∀ c j, Leads groups c j → Leads groups' c j)
    (hpiece : ∀ c : CodeUnit, lo ≤ c.toNat → c.toNat < hi →
      view.dead (view.after key c) = false → ∃ j, Leads groups' c j) :
    view.Covers key groups' hi := by
  intro c hc hlive
  by_cases hold : c.toNat < lo
  · obtain ⟨j, hj⟩ := h c hold hlive
    exact ⟨j, hgrows c j hj⟩
  · exact hpiece c (Nat.le_of_not_lt hold) hc hlive

/-- A state compares with one unit only if it has a single matcher. -/
theorem single_stateOf {id : Nat} {key : κ} {groups : List (Nat × List Interval)}
    {only : CodeUnit} {j : Nat} (h : (view.stateOf id key groups).single = some (only, j))
    (c : CodeUnit) :
    (view.stateOf id key groups).byEdges c = if c = only then some j else none := by
  obtain ⟨m, hedges, hm⟩ : ∃ m, (view.stateOf id key groups).edges = [(m, j)] ∧
      m.single? = some only := by
    simp only [stateOf] at h ⊢
    split at h
    · rename_i m successor hone
      obtain ⟨d, hd, he⟩ := Option.map_eq_some_iff.mp h
      obtain ⟨rfl, rfl⟩ := Prod.mk.inj he
      exact ⟨m, hone, hd⟩
    · simp at h
  rw [TableState.byEdges, hedges, List.find?_singleton, Matcher.accepts_of_single? hm]
  by_cases hc : c = only <;> simp [hc]

theorem next_stateOf (id : Nat) (key : κ) (groups : List (Nat × List Interval)) (c : CodeUnit) :
    (view.stateOf id key groups).next c = (view.stateOf id key groups).byEdges c := by
  unfold TableState.next
  split
  · rename_i only j hsingle
    rw [single_stateOf hsingle]
    by_cases hc : c = only <;> simp [hc]
  · rfl

/-- The interval of a loop is all that leads back. -/
theorem exists_of_selfLoop {id : Nat} {sets : List (Nat × CharSet)} {r : Interval}
    (h : selfLoop id sets = some r) : ∃ set, (id, set) ∈ sets ∧ set.intervals = [r] := by
  unfold selfLoop at h
  split at h
  · rename_i j set hfind
    have hj : j = id := by simpa using List.find?_some hfind
    split at h
    · rename_i only hset
      obtain rfl := Option.some.inj h
      exact ⟨set, hj ▸ List.mem_of_find?_eq_some hfind, hset⟩
    · simp at h
  · simp at h

/-- What the state of a key tells about a unit is what the groups tell. -/
theorem next_stateOf_eq_some {id : Nat} {key : κ} {keys : Array κ}
    {groups : List (Nat × List Interval)}
    (hdistinct : ∀ (i j : Nat) (k : κ), keys[i]? = some k → keys[j]? = some k → i = j)
    (hgroups : view.Groups key keys groups) {c : CodeUnit} {j : Nat} :
    (view.stateOf id key groups).next c = some j ↔ Leads groups c j := by
  rw [next_stateOf]
  refine ⟨leads_of_byEdges, fun hj => ?_⟩
  cases h : (view.stateOf id key groups).byEdges c with
  | none => exact absurd hj (not_leads_of_byEdges h j)
  | some i => rw [hgroups.unique hdistinct (leads_of_byEdges h) hj]

theorem coherent_stateOf {id : Nat} {key : κ} {keys : Array κ} {groups : List (Nat × List Interval)}
    (hdistinct : ∀ (i j : Nat) (k : κ), keys[i]? = some k → keys[j]? = some k → i = j)
    (hgroups : view.Groups key keys groups) : Coherent (view.stateOf id key groups) where
  disjoint := by
    -- Two matchers that accept the same unit would belong to the same state.
    have hedges : ((view.stateOf id key groups).edges.map Prod.snd).Nodup := by
      simpa [stateOf, Function.comp_def] using hgroups.distinct
    rw [List.Nodup, List.pairwise_map] at hedges
    refine hedges.imp_of_mem fun {e f} he hf hne c haccepts => ?_
    by_contra hboth
    exact hne (hgroups.unique hdistinct (leads_iff_edges.mpr ⟨e, he, rfl, haccepts⟩)
      (leads_iff_edges.mpr ⟨f, hf, rfl, by simpa using hboth⟩))
  next := next_stateOf id key groups
  single _ _ := single_stateOf
  loop r hr c := by
    obtain ⟨set, hmem, hset⟩ := exists_of_selfLoop hr
    have hcontains : c ∈ r ↔ set.contains c = true := by
      rw [CharSet.contains_iff, CharSet.mem_iff, hset]
      simp
    rw [hcontains, next_stateOf_eq_some hdistinct hgroups]
    refine ⟨fun hc => leads_iff.mpr ⟨set, hmem, hc⟩, fun hleads => ?_⟩
    obtain ⟨other, hother, hin⟩ := leads_iff.mp hleads
    have hnodup : ((groups.map fun g => (g.1, CharSet.ofIntervals g.2)).map Prod.fst).Nodup := by
      simpa [Function.comp_def] using hgroups.distinct
    obtain ⟨-, rfl⟩ := Prod.mk.inj (List.inj_on_of_nodup_map hnodup hmem hother rfl)
    exact hin

/-- Groups that tell everything about a key make up a state that stands for it. -/
theorem represents_stateOf {id : Nat} {key : κ} {keys : Array κ}
    {groups : List (Nat × List Interval)} (hkey : keys[id]? = some key)
    (hdistinct : ∀ (i j : Nat) (k : κ), keys[i]? = some k → keys[j]? = some k → i = j)
    (hgroups : view.Groups key keys groups) (hcovers : view.Covers key groups 65536) :
    view.Represents keys key (view.stateOf id key groups) where
  id := hkey
  acceptance := rfl
  resultIds := rfl
  next_some c j h := hgroups.tells c j ((next_stateOf_eq_some hdistinct hgroups).mp h)
  next_none c h := by
    by_contra hlive
    obtain ⟨j, hj⟩ := hcovers c c.toNat_lt (eq_false_of_ne_true hlive)
    rw [(next_stateOf_eq_some hdistinct hgroups).mpr hj] at h
    simp at h
  coherent := coherent_stateOf hdistinct hgroups

theorem Represents.mono {keys keys' : Array κ} {key : κ} {s : TableState}
    (h : view.Represents keys key s)
    (hgrows : ∀ (i : Nat) (k : κ), keys[i]? = some k → keys'[i]? = some k) :
    view.Represents keys' key s :=
  ⟨hgrows _ _ h.id, h.acceptance, h.resultIds,
    fun c j hj => ⟨(h.next_some c j hj).1, hgrows _ _ (h.next_some c j hj).2⟩, h.next_none,
    h.coherent⟩

end Powerset

variable [BEq κ] [Hashable κ]

namespace KeyNumbers

/-- Numbers and keys agree, and no key is further from the initial ones than its number says. -/
structure Valid (table : KeyNumbers κ) (view : Powerset κ) (initial : List κ) (limit : Nat) :
    Prop where
  ids : ∀ (key : κ) (i : Nat), table.ids[key]? = some i ↔ table.keys[i]? = some key
  size_le : table.keys.size ≤ limit
  reaches : ∀ (i : Nat) (key : κ), table.keys[i]? = some key → ∃ d ≤ i, view.Reaches initial d key

/-- Keys with numbers keep them. -/
def Grows (a b : KeyNumbers κ) : Prop :=
  a.keys.size ≤ b.keys.size ∧ ∀ (i : Nat) (key : κ), a.keys[i]? = some key → b.keys[i]? = some key

variable {view : Powerset κ} {initial : List κ} {limit : Nat}

/-- No key has two numbers. -/
theorem Valid.distinct {table : KeyNumbers κ} (h : table.Valid view initial limit) (i j : Nat)
    (key : κ) (hi : table.keys[i]? = some key) (hj : table.keys[j]? = some key) : i = j :=
  Option.some.inj (((h.ids key i).mpr hi).symm.trans ((h.ids key j).mpr hj))

theorem Valid.nodup {table : KeyNumbers κ} (h : table.Valid view initial limit) :
    table.keys.toList.Nodup := by
  rw [List.Nodup, List.pairwise_iff_getElem]
  intro i j hi hj hlt heq
  rw [Array.getElem_toList, Array.getElem_toList] at heq
  exact Nat.ne_of_lt hlt (h.distinct i j _ (Array.getElem?_eq_getElem hi)
    (heq ▸ Array.getElem?_eq_getElem hj))

theorem Grows.refl (a : KeyNumbers κ) : a.Grows a := ⟨Nat.le_refl _, fun _ _ h => h⟩

theorem Grows.trans {a b c : KeyNumbers κ} (h : a.Grows b) (h' : b.Grows c) : a.Grows c :=
  ⟨Nat.le_trans h.1 h'.1, fun i key hk => h'.2 i key (h.2 i key hk)⟩

variable [LawfulBEq κ] [LawfulHashable κ]

theorem valid_empty : ({} : KeyNumbers κ).Valid view initial limit where
  ids key i := by simp
  size_le := Nat.zero_le _
  reaches i key h := by simp at h

/-- A new key gets the next number. -/
theorem Valid.push {table : KeyNumbers κ} {key : κ} {d : Nat} (hv : table.Valid view initial limit)
    (hnew : table.ids[key]? = none) (hlimit : table.keys.size < limit)
    (hreach : view.Reaches initial d key) (hd : d ≤ table.keys.size) :
    Valid ⟨table.ids.insert key table.keys.size, table.keys.push key⟩ view initial limit where
  ids k i := by
    have hnot : table.keys[i]? ≠ some key := by
      rw [ne_eq, ← hv.ids key i, hnew]
      simp
    rw [Std.HashMap.getElem?_insert, getElem?_push_eq_some]
    split
    · rename_i hk
      obtain rfl := eq_of_beq hk
      simp [hnot, eq_comm]
    · rename_i hk
      have hne : k ≠ key := fun heq => hk (by simp [heq])
      simp [hne, hv.ids k i]
  size_le := by
    rw [Array.size_push]
    exact hlimit
  reaches i k hk := by
    rcases getElem?_push_eq_some.mp hk with ⟨rfl, rfl⟩ | hold
    · exact ⟨d, hd, hreach⟩
    · exact hv.reaches i k hold

theorem number_spec {table after : KeyNumbers κ} {key : κ} {id d : Nat}
    (hv : table.Valid view initial limit) (hreach : view.Reaches initial d key)
    (hd : d ≤ table.keys.size) (h : table.number limit key = .ok (id, after)) :
    after.Valid view initial limit ∧ table.Grows after ∧ after.keys[id]? = some key := by
  unfold number at h
  split at h
  · rename_i i hi
    obtain ⟨rfl, rfl⟩ := Prod.mk.inj (Except.ok.inj h)
    exact ⟨hv, .refl _, (hv.ids key i).mp hi⟩
  · rename_i hnone
    dsimp only at h
    split at h
    · simp at h
    rename_i hlimit
    obtain ⟨rfl, rfl⟩ := Prod.mk.inj (Except.ok.inj h)
    exact ⟨hv.push hnone (Nat.lt_of_not_le hlimit) hreach hd,
      ⟨by simp, fun i k hk => getElem?_push_eq_some.mpr (.inr hk)⟩,
      getElem?_push_eq_some.mpr (.inl ⟨rfl, rfl⟩)⟩

theorem numberAll_spec {table after : KeyNumbers κ} {keys : List κ} {ids : List Nat}
    (hv : table.Valid view initial limit) (hkeys : ∀ key ∈ keys, key ∈ initial)
    (h : table.numberAll limit keys = .ok (ids, after)) :
    after.Valid view initial limit ∧ table.Grows after ∧ ids.length = keys.length ∧
      ∀ (i id : Nat) (key : κ), ids[i]? = some id → keys[i]? = some key →
        after.keys[id]? = some key := by
  induction keys generalizing table ids with
  | nil =>
    obtain ⟨rfl, rfl⟩ := Prod.mk.inj (Except.ok.inj h)
    exact ⟨hv, .refl _, rfl, fun i id key hi _ => by simp at hi⟩
  | cons key rest ih =>
    unfold numberAll at h
    split at h
    · simp at h
    rename_i id numbered hnumber
    split at h
    · simp at h
    rename_i ids' table' hall
    obtain ⟨rfl, rfl⟩ := Prod.mk.inj (Except.ok.inj h)
    obtain ⟨hvalid, hgrows, hid⟩ :=
      number_spec hv (.start (hkeys key (by simp))) (Nat.zero_le _) hnumber
    obtain ⟨hvalid', hgrows', hlength, hids⟩ := ih hvalid (fun k hk => hkeys k (by simp [hk])) hall
    refine ⟨hvalid', hgrows.trans hgrows', by simp [hlength], fun i j k hj hk => ?_⟩
    cases i with
    | zero =>
      obtain rfl := Option.some.inj hj
      obtain rfl := Option.some.inj hk
      exact hgrows'.2 _ _ hid
    | succ i => exact hids i j k hj hk

end KeyNumbers

namespace Powerset

variable {view : Powerset κ} {initial : List κ} {limit : Nat}

variable [LawfulBEq κ] [LawfulHashable κ]

/-- One step for every piece of the alphabet tells where a key leads on all units. -/
theorem edges_spec (hview : view.Respects) {id : Nat} {key : κ} {lo : Nat} {rest front : List Nat}
    {table after : KeyNumbers κ} {groups groups' : List (Nat × List Interval)}
    (hv : table.Valid view initial limit) (hid : table.keys[id]? = some key)
    (hbounds : pieceBounds (view.nextSets key) = front ++ lo :: rest)
    (hgroups : view.Groups key table.keys groups) (hcovers : view.Covers key groups lo)
    (h : view.edges limit key table groups (lo :: rest) = .ok (groups', after)) :
    after.Valid view initial limit ∧ table.Grows after ∧ view.Groups key after.keys groups' ∧
      view.Covers key groups' 65536 := by
  induction rest generalizing lo front table groups with
  | nil =>
    obtain ⟨rfl, rfl⟩ := Prod.mk.inj (Except.ok.inj h)
    exact ⟨hv, .refl _, hgroups,
      fun c hc => hcovers c (Nat.lt_of_lt_of_le hc (last_of_bounds hbounds))⟩
  | cons hi rest ih =>
    have hnextBounds : pieceBounds (view.nextSets key) = (front ++ [lo]) ++ hi :: rest := by
      simp [hbounds]
    obtain ⟨hlt, hmax⟩ := lt_of_bounds hbounds
    unfold edges at h
    dsimp only at h
    split at h
    · rename_i hdead
      refine ih hv hid hnextBounds hgroups (hcovers.next (fun _ _ h => h) ?_) h
      intro c hlo hhi hlive
      rw [hview.after_eq hbounds ((mem_piece hlt hmax).mpr ⟨hlo, hhi⟩), hdead] at hlive
      simp at hlive
    · rename_i hlive
      have hlive := eq_false_of_ne_true hlive
      split at h
      · simp at h
      rename_i j numbered hnumber
      obtain ⟨hid_lt, -⟩ := Array.getElem?_eq_some_iff.mp hid
      obtain ⟨d, hd, hreach⟩ := hv.reaches id key hid
      obtain ⟨hvalid, hgrows, hj⟩ :=
        KeyNumbers.number_spec hv (hreach.read _ hlive) (by omega) hnumber
      obtain ⟨hvalid', hgrows', hgroups', hcovers'⟩ := ih hvalid (hgrows.2 id key hid) hnextBounds
        (hgroups.addPiece hgrows.2 fun c hc => hview.after_eq hbounds hc ▸ ⟨hlive, hj⟩)
        (hcovers.next (fun _ _ h => leads_addPiece.mpr (.inr h)) fun c hlo hhi _ =>
          ⟨j, leads_addPiece.mpr (.inl ⟨rfl, (mem_piece hlt hmax).mpr ⟨hlo, hhi⟩⟩)⟩) h
      exact ⟨hvalid', hgrows.trans hgrows', hgroups', hcovers'⟩

/-- Together the pieces tell all about a key. -/
theorem edges_pieceBounds (hview : view.Respects) {id : Nat} {key : κ}
    {table after : KeyNumbers κ} {groups : List (Nat × List Interval)}
    (hv : table.Valid view initial limit) (hid : table.keys[id]? = some key)
    (h : view.edges limit key table [] (pieceBounds (view.nextSets key)) = .ok (groups, after)) :
    after.Valid view initial limit ∧ table.Grows after ∧ view.Groups key after.keys groups ∧
      view.Covers key groups 65536 := by
  obtain ⟨lo, rest, hbounds⟩ : ∃ lo rest, pieceBounds (view.nextSets key) = lo :: rest :=
    List.exists_cons_of_ne_nil (List.ne_nil_of_mem (mem_pieceBounds.mpr (.inl rfl)))
  obtain rfl := first_of_bounds hbounds
  rw [hbounds] at h
  have hwhole : pieceBounds (view.nextSets key) = [] ++ 0 :: rest := hbounds
  exact edges_spec hview hv hid hwhole ⟨by simp, fun c j hj => by simp [Leads] at hj⟩
    (fun c hc => by omega) h

/-- The keys in front of the next one all have states. -/
theorem tabulateFrom_spec (hview : view.Respects) {fuel : Nat} {table : KeyNumbers κ}
    {states states' : Array TableState} (hv : table.Valid view initial limit)
    (hsize : states.size ≤ table.keys.size) (hfuel : fuel + states.size = limit)
    (hstates : ∀ (i : Nat) (s : TableState) (key : κ), states[i]? = some s →
      table.keys[i]? = some key → view.Represents table.keys key s)
    (h : view.tabulateFrom limit fuel table states = .ok states') :
    ∃ after : KeyNumbers κ, after.Valid view initial limit ∧ table.Grows after ∧
      states'.size = after.keys.size ∧
      ∀ (i : Nat) (s : TableState) (key : κ), states'[i]? = some s → after.keys[i]? = some key →
        view.Represents after.keys key s := by
  induction fuel generalizing table states with
  | zero =>
    obtain rfl := Except.ok.inj h
    have := hv.size_le
    exact ⟨table, hv, .refl _, by omega, hstates⟩
  | succ fuel ih =>
    unfold tabulateFrom at h
    split at h
    · rename_i hnone
      obtain rfl := Except.ok.inj h
      have := Array.getElem?_eq_none_iff.mp hnone
      exact ⟨table, hv, .refl _, by omega, hstates⟩
    rename_i key hkey
    split at h
    · simp at h
    rename_i groups numbered hedges
    obtain ⟨hvalid, hgrows, hgroups, hcovers⟩ := edges_pieceBounds hview hv hkey hedges
    have hkeyAfter := hgrows.2 _ _ hkey
    obtain ⟨hlt, -⟩ := Array.getElem?_eq_some_iff.mp hkeyAfter
    obtain ⟨after, hafter, hgrows', hresult⟩ := ih hvalid (by simp only [Array.size_push]; omega)
      (by simp only [Array.size_push]; omega)
      (fun i s k hs hk => by
        rcases getElem?_push_eq_some.mp hs with ⟨rfl, rfl⟩ | hs
        · obtain rfl : key = k := Option.some.inj (hkeyAfter.symm.trans hk)
          exact represents_stateOf hkeyAfter hvalid.distinct hgroups hcovers
        · have hlt : i < table.keys.size := by
            obtain ⟨hi, -⟩ := Array.getElem?_eq_some_iff.mp hs
            omega
          obtain ⟨k', hk'⟩ : ∃ k', table.keys[i]? = some k' := ⟨_, Array.getElem?_eq_getElem hlt⟩
          obtain rfl : k' = k := Option.some.inj ((hgrows.2 _ _ hk').symm.trans hk)
          exact (hstates i s k' hs hk').mono hgrows.2) h
    exact ⟨after, hafter, hgrows.trans hgrows', hresult⟩

/-- The states of a table stand for the keys that the initial ones lead to. -/
theorem tabulates_of_tabulate (hview : view.Respects) {maxStates : Nat} {dfa : Dfa}
    (h : view.tabulate initial maxStates = .ok dfa) :
    ∃ keys, keys.size ≤ maxStates ∧ view.Tabulates initial dfa keys := by
  unfold tabulate at h
  dsimp only at h
  split at h
  · simp at h
  rename_i entries numbered hentries
  split at h
  · simp at h
  rename_i states hstates
  obtain rfl := Except.ok.inj h
  obtain ⟨hvalid, -, hlength, hids⟩ :=
    KeyNumbers.numberAll_spec (KeyNumbers.valid_empty : ({} : KeyNumbers κ).Valid view initial _)
      (fun key hkey => hkey) hentries
  obtain ⟨after, hafter, hgrows, hsize, hall⟩ := tabulateFrom_spec hview hvalid
    (Nat.zero_le _) (by simp) (fun i s key hs => by simp at hs) hstates
  have hle := hafter.size_le
  refine ⟨after.keys, by omega, ⟨by omega, hsize, hafter.nodup, hafter.reaches, hlength,
    fun i key hkey => ?_, fun i key hkey => ?_⟩⟩
  · obtain ⟨hlt, -⟩ := List.getElem?_eq_some_iff.mp hkey
    have hid : entries[i]? = some entries[i] := List.getElem?_eq_getElem (by omega)
    have hnumbered := hids i entries[i] key hid hkey
    rw [Dfa.entry, hid]
    exact hgrows.2 _ _ hnumbered
  · obtain ⟨hlt, -⟩ := Array.getElem?_eq_some_iff.mp hkey
    have hs : states[i]? = some states[i] := Array.getElem?_eq_getElem (by omega)
    rw [Dfa.state, hs]
    exact hall i states[i] key hs hkey

end Powerset

end

end UnitRegex
