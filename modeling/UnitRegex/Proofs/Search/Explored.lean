import Mathlib.Order.WellFounded
import UnitRegex.Search.Explore

/-!
What an exploration preserves, and what it finds. Every place has a value, which may be nothing, and
what was found is worth the first value among the places seen so far. A place seen before can be
left out: unless it is still being explored, its value was taken into account, and an exploration
never comes back to a place that it is still exploring.
-/

namespace UnitRegex

theorem findSome?_congr {α β : Type} {f g : α → Option β} {l : List α} (h : ∀ a ∈ l, f a = g a) :
    l.findSome? f = l.findSome? g := by
  induction l with
  | nil => rfl
  | cons a l ih =>
    rw [List.findSome?_cons, List.findSome?_cons, h a (by simp), ih fun b hb => h b (by simp [hb])]

theorem findSome?_range'_eq_some_iff {β : Type} {f : Nat → Option β} {start count : Nat} {b : β} :
    (List.range' start count).findSome? f = some b ↔
      ∃ i, start ≤ i ∧ i < start + count ∧ f i = some b ∧ ∀ j, start ≤ j → j < i → f j = none := by
  induction count generalizing start with
  | zero =>
    simp only [List.range'_zero, List.findSome?_nil, reduceCtorEq, false_iff]
    rintro ⟨i, hle, hlt, -⟩
    omega
  | succ count ih =>
    rw [List.range'_succ, List.findSome?_cons]
    constructor
    · intro hsome
      cases hstart : f start with
      | some a =>
        rw [hstart] at hsome
        exact ⟨start, Nat.le_refl _, by omega, hstart.trans hsome, fun j _ _ => by omega⟩
      | none =>
        rw [hstart] at hsome
        obtain ⟨i, hle, hlt, hi, hnone⟩ := ih.mp hsome
        refine ⟨i, by omega, by omega, hi, fun j hj hji => ?_⟩
        by_cases heq : j = start
        · rw [heq, hstart]
        · exact hnone j (by omega) hji
    · rintro ⟨i, hle, hlt, hi, hnone⟩
      by_cases heq : start = i
      · rw [heq, hi]
      · rw [hnone start (Nat.le_refl _) (by omega)]
        exact ih.mpr ⟨i, by omega, by omega, hi, fun j hj hji => hnone j (by omega) hji⟩

section

variable {π σ : Type} {visit : π → σ → Visit π σ} [Exhausts visit]

/-- Induction on the visits of an exploration. -/
@[elab_as_elim]
theorem explore_induction (visit : π → σ → Visit π σ) [Exhausts visit]
    {motive : List π → σ → Prop} (nil : ∀ f, motive [] f)
    (stop : ∀ p rest f f', visit p f = .stop f' → motive (p :: rest) f)
    (go : ∀ p rest f next f', visit p f = .go next f' → motive (next ++ rest) f' →
      motive (p :: rest) f) (stack : List π) (f : σ) : motive stack f := by
  induction h : (stack, f) using (wellFounded_visited visit).induction generalizing stack f with
  | _ stage ih =>
    subst h
    cases stack with
    | nil => exact nil f
    | cons p rest =>
      cases hvisit : visit p f with
      | stop f' => exact stop p rest f f' hvisit
      | go next f' => exact go p rest f next f' hvisit (ih _ (.go hvisit) _ _ rfl)

/-- What every visit preserves holds after an exploration. -/
theorem explore_preserves {good : π → Prop} {inv : σ → Prop}
    (hstop : ∀ p f f', good p → inv f → visit p f = .stop f' → inv f')
    (hgo : ∀ p f next f', good p → inv f → visit p f = .go next f' → inv f' ∧ ∀ q ∈ next, good q)
    {stack : List π} (hstack : ∀ p ∈ stack, good p) {f : σ} (hf : inv f) :
    inv (explore visit stack f) := by
  induction stack, f using explore_induction visit with
  | nil f =>
    rw [explore_nil]
    exact hf
  | stop p rest f f' hvisit =>
    rw [explore_cons, hvisit]
    exact hstop p f f' (hstack p (by simp)) hf hvisit
  | go p rest f next f' hvisit ih =>
    rw [explore_cons, hvisit]
    obtain ⟨hf', hnext⟩ := hgo p f next f' (hstack p (by simp)) hf hvisit
    refine ih (fun q hq => ?_) hf'
    exact (List.mem_append.mp hq).elim (hnext q) fun hq => hstack q (by simp [hq])

/-- Where no visit ends an exploration, what waits is explored after all that comes before it. -/
theorem explore_append (hgo : ∀ p f f', visit p f ≠ .stop f') (top rest : List π) (f : σ) :
    explore visit (top ++ rest) f = explore visit rest (explore visit top f) := by
  induction top, f using explore_induction visit with
  | nil f => rw [explore_nil, List.nil_append]
  | stop p top f f' hvisit => exact absurd hvisit (hgo p f f')
  | go p top f next f' hvisit ih =>
    rw [List.cons_append, explore_cons, explore_cons visit p top, hvisit]
    simpa using ih

end

/-- Visits to places with values. `key` is what is remembered of a place, and `below` holds between
a place and one in front of it. -/
structure Valuation {π σ κ ω : Type} (visit : π → σ → Visit π σ) (key : π → κ)
    (below : κ → κ → Prop) (good : π → Prop) (ok done : σ → Prop) (marked : σ → κ → Prop)
    (val : π → Option ω) (worth : σ → Option ω) : Prop where
  wellFounded : WellFounded below
  /-- Whether a place has a value only depends on what is remembered of it. -/
  same : ∀ p q, good p → good q → key p = key q → (val p).isSome → (val q).isSome
  seen : ∀ p f, good p → ok f → marked f (key p) →
    ∃ f', visit p f = .go [] f' ∧ ok f' ∧ worth f' = worth f ∧
      ∀ k, marked f' k → marked f k
  fresh : ∀ p f, good p → ok f → ¬marked f (key p) →
    (∃ next f' v, visit p f = .go next f' ∧ ok f' ∧ worth f' = (worth f).or v ∧
      val p = v.or (next.findSome? val) ∧ (∀ k, marked f' k → k = key p ∨ marked f k) ∧
      ∀ q ∈ next, good q ∧ below (key q) (key p)) ∨
    ∃ f', visit p f = .stop f' ∧ done f' ∧ worth f' = (worth f).or (val p) ∧ (val p).isSome

namespace Valuation

variable {π σ κ ω : Type} {visit : π → σ → Visit π σ} [Exhausts visit] {key : π → κ}
  {below : κ → κ → Prop} {good : π → Prop} {ok done : σ → Prop} {marked : σ → κ → Prop}
  {val : π → Option ω} {worth : σ → Option ω}

/-- The values of marked places have been taken into account, apart from some open ones. -/
def SettledBut (good : π → Prop) (key : π → κ) (marked : σ → κ → Prop) (val : π → Option ω)
    (worth : σ → Option ω) (opened : κ → Prop) (f : σ) : Prop :=
  ∀ p, good p → marked f (key p) → ¬opened (key p) → (val p).isSome → (worth f).isSome

/-- The values of all marked places have been taken into account. -/
abbrev Settled (good : π → Prop) (key : π → κ) (marked : σ → κ → Prop) (val : π → Option ω)
    (worth : σ → Option ω) (f : σ) : Prop :=
  SettledBut good key marked val worth (fun _ => False) f

/-- What comes of the places on top of a stack: the exploration is over, or it goes on with the
rest. -/
def Passes (visit : π → σ → Visit π σ) [Exhausts visit] (good : π → Prop) (key : π → κ)
    (ok done : σ → Prop) (marked : σ → κ → Prop) (val : π → Option ω) (worth : σ → Option ω)
    (opened : κ → Prop) (f : σ) (top : List π) : Prop :=
  ∀ rest, ∃ f', worth f' = (worth f).or (top.findSome? val) ∧
    ((explore visit (top ++ rest) f = f' ∧ done f' ∧ (worth f').isSome) ∨
      (explore visit (top ++ rest) f = explore visit rest f' ∧ ok f' ∧
        SettledBut good key marked val worth opened f'))

theorem passes_list {opened : κ → Prop} {f : σ} {top : List π}
    (h : ∀ p ∈ top, ∀ f, ok f → SettledBut good key marked val worth opened f →
      Passes visit good key ok done marked val worth opened f [p])
    (hok : ok f) (hsettled : SettledBut good key marked val worth opened f) :
    Passes visit good key ok done marked val worth opened f top := by
  induction top generalizing f with
  | nil =>
    intro rest
    exact ⟨f, by simp, .inr ⟨rfl, hok, hsettled⟩⟩
  | cons p top ih =>
    intro rest
    obtain ⟨f', hworth, hone⟩ := h p (by simp) f hok hsettled (top ++ rest)
    rw [List.findSome?_singleton] at hworth
    have hvalue : (worth f).or ((p :: top).findSome? val) =
        (worth f').or (top.findSome? val) := by
      rw [hworth, List.findSome?_cons, Option.or_assoc]
      cases val p <;> rfl
    rcases hone with ⟨hover, hdone, hsome⟩ | ⟨hon, hok', hsettled'⟩
    · refine ⟨f', ?_, .inl ⟨hover, hdone, hsome⟩⟩
      rw [hvalue, Option.or_of_isSome hsome]
    · obtain ⟨f'', hworth', hrest⟩ :=
        ih (fun q hq => h q (by simp [hq])) hok' hsettled' rest
      refine ⟨f'', by rw [hworth', hvalue], ?_⟩
      have hstart : explore visit (p :: top ++ rest) f = explore visit (top ++ rest) f' := hon
      rw [hstart]
      exact hrest

/-- A place that is visited for the first time is open until all behind it has been explored. -/
theorem settledBut_visit {opened : κ → Prop} {f f' : σ} {a : κ} {v : Option ω}
    (hsettled : SettledBut good key marked val worth opened f)
    (hmarks : ∀ k, marked f' k → k = a ∨ marked f k) (hworth : worth f' = (worth f).or v) :
    SettledBut good key marked val worth (fun k => k = a ∨ opened k) f' := by
  intro q hq hm ho hv
  rcases hmarks _ hm with heq | hm
  · exact absurd (.inl heq) ho
  · rw [hworth, Option.isSome_or, hsettled q hq hm (fun h => ho (.inr h)) hv]
    rfl

/-- A place seen before adds nothing, unless it is open. -/
theorem passes_seen (h : Valuation visit key below good ok done marked val worth) {p : π}
    (hp : good p) {opened : κ → Prop} (hclosed : ¬opened (key p)) {f : σ} (hok : ok f)
    (hsettled : SettledBut good key marked val worth opened f) (hmarked : marked f (key p)) :
    Passes visit good key ok done marked val worth opened f [p] := by
  intro rest
  obtain ⟨f', hvisit, hok', hworth, hmarks⟩ := h.seen p f hp hok hmarked
  have hvalue : worth f' = (worth f).or ([p].findSome? val) := by
    rw [hworth, List.findSome?_singleton]
    cases hval : val p with
    | none => simp
    | some v => rw [Option.or_of_isSome (hsettled p hp hmarked hclosed (by simp [hval]))]
  have hstep := explore_cons visit p rest f
  refine ⟨f', hvalue, .inr ⟨by simpa [hvisit] using hstep, hok', fun q hq hm ho hv => ?_⟩⟩
  rw [hworth]
  exact hsettled q hq (hmarks _ hm) ho hv

/-- Exploring all that is behind a place settles it. -/
theorem passes_go (h : Valuation visit key below good ok done marked val worth) {p : π}
    (hp : good p) {opened : κ → Prop} {f f' : σ} {next : List π} {v : Option ω}
    (hvisit : visit p f = .go next f') (hworth : worth f' = (worth f).or v)
    (hval : val p = v.or (next.findSome? val))
    (hnext : Passes visit good key ok done marked val worth (fun k => k = key p ∨ opened k) f'
      next) :
    Passes visit good key ok done marked val worth opened f [p] := by
  intro rest
  obtain ⟨f'', hworth', hrest⟩ := hnext rest
  have hvalue : worth f'' = (worth f).or ([p].findSome? val) := by
    rw [hworth', hworth, List.findSome?_singleton, hval, Option.or_assoc]
  have hstart : explore visit ([p] ++ rest) f = explore visit (next ++ rest) f' := by
    simpa [hvisit] using explore_cons visit p rest f
  refine ⟨f'', hvalue, ?_⟩
  rw [hstart]
  refine hrest.imp id fun hend => ⟨hend.1, hend.2.1, fun q hq hm ho hv => ?_⟩
  by_cases hkey : key q = key p
  · rw [hvalue, List.findSome?_singleton, Option.isSome_or, h.same q p hq hp hkey hv, Bool.or_true]
  · exact hend.2.2 q hq hm (by simp [hkey, ho]) hv

theorem passes_one (h : Valuation visit key below good ok done marked val worth) {p : π}
    (hp : good p) {opened : κ → Prop}
    (hopened : ∀ k, opened k → Relation.TransGen below (key p) k) {f : σ} (hok : ok f)
    (hsettled : SettledBut good key marked val worth opened f) :
    Passes visit good key ok done marked val worth opened f [p] := by
  generalize hk : key p = k at hopened
  induction k using h.wellFounded.induction generalizing p opened f with
  | _ k ih =>
    subst hk
    by_cases hmarked : marked f (key p)
    · have hclosed : ¬opened (key p) := fun hself =>
        h.wellFounded.transGen.irrefl.irrefl _ (hopened _ hself)
      exact h.passes_seen hp hclosed hok hsettled hmarked
    · rcases h.fresh p f hp hok hmarked with
        ⟨next, f', v, hvisit, hok', hworth, hval, hmarks, hnext⟩ |
        ⟨f', hvisit, hdone, hworth, hsome⟩
      · refine h.passes_go hp hvisit hworth hval ?_
        refine passes_list (fun q hq g hg hgs => ?_) hok' (settledBut_visit hsettled hmarks hworth)
        obtain ⟨hqgood, hqbelow⟩ := hnext q hq
        refine ih (key q) hqbelow hqgood hg hgs rfl fun k hk => ?_
        rcases hk with rfl | hk
        · exact .single hqbelow
        · exact .head hqbelow (hopened k hk)
      · intro rest
        refine ⟨f', by rw [hworth, List.findSome?_singleton], .inl ⟨?_, hdone, ?_⟩⟩
        · simpa [hvisit] using explore_cons visit p rest f
        · rw [hworth, Option.isSome_or, hsome, Bool.or_true]

/-- An exploration finds the first value of its places, after what was found before. -/
theorem explore_spec (h : Valuation visit key below good ok done marked val worth) {f : σ}
    {stack : List π} (hgood : ∀ p ∈ stack, good p) (hok : ok f)
    (hsettled : Settled good key marked val worth f) :
    worth (explore visit stack f) = (worth f).or (stack.findSome? val) ∧
      ((done (explore visit stack f) ∧ (worth (explore visit stack f)).isSome) ∨
        (ok (explore visit stack f) ∧
          Settled good key marked val worth (explore visit stack f))) := by
  have hpass : Passes visit good key ok done marked val worth (fun _ => False) f stack :=
    passes_list (fun p hp g hg hgs => h.passes_one (hgood p hp) (fun _ hk => hk.elim) hg hgs) hok
      hsettled
  obtain ⟨f', hworth, hend⟩ := hpass []
  rw [List.append_nil] at hend
  rcases hend with ⟨heq, hdone, hsome⟩ | ⟨heq, hok', hsettled'⟩
  · rw [heq]
    exact ⟨hworth, .inl ⟨hdone, hsome⟩⟩
  · rw [explore_nil] at heq
    rw [heq]
    exact ⟨hworth, .inr ⟨hok', hsettled'⟩⟩

end Valuation

end UnitRegex
