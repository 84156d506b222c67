import UnitRegex.Proofs.Alphabet.Extensional
import UnitRegex.Proofs.Pattern.Respelled
import UnitRegex.Proofs.Pattern.Skims

/-!
Two spellings of one pattern are read side by side. Every reader that succeeds in front of the first
spelling succeeds in front of the second one too, gives the same, does the same to the cursor, and
leaves two spellings of the same rest. The readers take the same steps up to where the first finds
`\W` and the second `[^\w]`, which is the same set unless case is ignored in unicode mode.
-/

namespace UnitRegex

/-- Two settings for two spellings of one pattern. -/
structure Setting.Alike (s s' : Setting) : Prop where
  flags : s.flags = s'.flags
  groups : s.groups.Alike s'.groups

namespace Reader

theorem accept_of_begins {s : Setting} {c : Cursor} {d : Char} {rest : List Char}
    (h : c.rest = d :: rest) : Reader.accept d s c = .ok (true, { c with rest := rest }) := by
  cases c
  cases h
  refine bind_eq_ok.mpr ⟨_, _, rfl, ?_⟩
  dsimp only
  rw [if_pos rfl]
  rfl

theorem discard_accept_of_begins {s : Setting} {c : Cursor} {d : Char} {rest : List Char}
    (h : c.rest = d :: rest) :
    (discard (Reader.accept d) : Reader Unit) s c = .ok ((), { c with rest := rest }) := by
  show (Reader.accept d >>= fun _ => pure ()) s c = _
  exact bind_eq_ok.mpr ⟨true, _, accept_of_begins h, rfl⟩

theorem accept_of_not_begins {s : Setting} {c : Cursor} {d : Char}
    (h : ∀ rest, c.rest ≠ d :: rest) : Reader.accept d s c = .ok (false, c) := by
  refine bind_eq_ok.mpr ⟨c, c, rfl, ?_⟩
  cases hrest : c.rest with
  | nil => rfl
  | cons e rest =>
    dsimp only
    rw [if_neg]
    · rfl
    · rintro rfl
      exact h rest hrest

variable {α β : Type} {s s' : Setting} {inClass : Bool} {n m : Nat} {x y x' y' : List Char}
  {P : α → List Char → List Char → Prop} {Q : β → List Char → List Char → Prop}

/-- What a reader gives in front of some characters, another one gives in front of others. Apart
from the characters both leave the same cursor, and what they give and leave has a property. -/
def Mirrors (s s' : Setting) (r r' : Reader α) (x y : List Char)
    (P : α → List Char → List Char → Prop) : Prop :=
  ∀ c a d, c.rest = x → r s c = .ok (a, d) →
    ∃ y', r' s' { c with rest := y } = .ok (a, { d with rest := y' }) ∧ P a d.rest y'

namespace Mirrors

theorem pure {a : α} (h : P a x y) : Mirrors s s' (Pure.pure a) (Pure.pure a) x y P := by
  intro c b d hc hrun
  obtain ⟨rfl, rfl⟩ := pure_eq_ok.mp hrun
  subst hc
  exact ⟨y, rfl, h⟩

theorem bind {r r' : Reader α} {f f' : α → Reader β} (hr : Mirrors s s' r r' x y P)
    (hf : ∀ a x' y', P a x' y' → Mirrors s s' (f a) (f' a) x' y' Q) :
    Mirrors s s' (r >>= f) (r' >>= f') x y Q := by
  intro c b d hc hrun
  obtain ⟨a, e, hra, hfa⟩ := bind_eq_ok.mp hrun
  obtain ⟨y', hra', ha⟩ := hr _ _ _ hc hra
  obtain ⟨y'', hfa', hb⟩ := hf a e.rest y' ha _ _ _ rfl hfa
  exact ⟨y'', bind_eq_ok.mpr ⟨a, _, hra', hfa'⟩, hb⟩

theorem read {f f' : Setting → Reader β} (h : Mirrors s s' (f s) (f' s') x y Q) :
    Mirrors s s' (MonadReader.read >>= f) (MonadReader.read >>= f') x y Q := by
  intro c b d hc hrun
  obtain ⟨a, e, hread, hfa⟩ := bind_eq_ok.mp hrun
  cases hread
  obtain ⟨y', hfa', hb⟩ := h _ _ _ hc hfa
  exact ⟨y', bind_eq_ok.mpr ⟨s', _, rfl, hfa'⟩, hb⟩

theorem get {f f' : Cursor → Reader β}
    (h : ∀ c : Cursor, c.rest = x → Mirrors s s' (f c) (f' { c with rest := y }) x y Q) :
    Mirrors s s' (MonadState.get >>= f) (MonadState.get >>= f') x y Q := by
  intro c b d hc hrun
  obtain ⟨a, e, hget, hfa⟩ := bind_eq_ok.mp hrun
  cases hget
  obtain ⟨y', hfa', hb⟩ := h c hc _ _ _ hc hfa
  exact ⟨y', bind_eq_ok.mpr ⟨_, _, rfl, hfa'⟩, hb⟩

/-- Positions may differ. -/
theorem position {f f' : Nat → Reader β} (h : ∀ i j, Mirrors s s' (f i) (f' j) x y Q) :
    Mirrors s s' (Reader.position >>= f) (Reader.position >>= f') x y Q := by
  intro c b d hc hrun
  obtain ⟨i, e, hposition, hfi⟩ := bind_eq_ok.mp hrun
  cases hposition
  obtain ⟨y', hfj, hb⟩ := h _ (s'.length - y.length) _ _ _ hc hfi
  exact ⟨y', bind_eq_ok.mpr ⟨_, _, rfl, hfj⟩, hb⟩

theorem moveTo {f f' : Unit → Reader β} (h : Mirrors s s' (f ()) (f' ()) x' y' Q) :
    Mirrors s s' (Reader.moveTo x' >>= f) (Reader.moveTo y' >>= f') x y Q := by
  intro c b d hc hrun
  obtain ⟨a, e, hmove, hfa⟩ := bind_eq_ok.mp hrun
  cases hmove
  obtain ⟨z, hfa', hb⟩ := h _ _ _ rfl hfa
  exact ⟨z, bind_eq_ok.mpr ⟨(), _, rfl, hfa'⟩, hb⟩

/-- A change of the cursor that has nothing to do with the characters. -/
theorem change {P : Unit → List Char → List Char → Prop} {change : Cursor → Cursor}
    (hchange : ∀ c rest, change { c with rest := rest } = { change c with rest := rest })
    (h : P () x y) : Mirrors s s' (modify change) (modify change) x y P := by
  intro c a d hc hrun
  cases hrun
  have hrest : (change c).rest = c.rest := by
    rw [show c = { c with rest := c.rest } from rfl, hchange]
  refine ⟨y, ?_, ?_⟩
  · rw [← hchange]
    rfl
  · rw [hrest, hc]
    exact h

theorem throw {e : Fault × Nat} {r' : Reader α} :
    Mirrors s s' (MonadExcept.throw e : Reader α) r' x y P := by
  intro c a d _ hrun
  cases hrun

theorem fail {fault : Fault} {r' : Reader α} :
    Mirrors s s' (Reader.fail fault : Reader α) r' x y P := by
  intro c a d _ hrun
  cases hrun

theorem imp {r r' : Reader α} {P' : α → List Char → List Char → Prop}
    (h : Mirrors s s' r r' x y P) (himp : ∀ a x' y', P a x' y' → P' a x' y') :
    Mirrors s s' r r' x y P' := by
  intro c a d hc hrun
  obtain ⟨y', hrun', ha⟩ := h _ _ _ hc hrun
  exact ⟨y', hrun', himp _ _ _ ha⟩

/-- An ordinary character is consumed from both spellings or from neither. -/
theorem accept {c : Char} (hc : Ordinary c) (h : Respelled inClass n m x y) :
    Mirrors s s' (Reader.accept c) (Reader.accept c) x y fun found x' y' =>
      if found then ∃ n' m', n' < n ∧ m' < m ∧ Respelled inClass n' m' x' y'
      else Respelled inClass n m x' y' := by
  intro cursor found d hrest hrun
  subst hrest
  rcases h.begins hc with ⟨n', m', x', y', hn, hm, hx, rfl, h'⟩ | ⟨hx, hy⟩
  · rw [accept_of_begins hx] at hrun
    cases hrun
    exact ⟨y', accept_of_begins rfl, n', m', hn, hm, h'⟩
  · rw [accept_of_not_begins hx] at hrun
    cases hrun
    exact ⟨y, accept_of_not_begins hy, h⟩

/-- An ordinary character may be consumed. -/
theorem acceptAny {c : Char} (hc : Ordinary c) (h : Respelled inClass n m x y) :
    Mirrors s s' (Reader.accept c) (Reader.accept c) x y fun _ => Respelled inClass n m := by
  apply (accept hc h).imp
  intro found x' y' hfound
  cases found with
  | false => exact hfound
  | true =>
    obtain ⟨n', m', hn, hm, h'⟩ := hfound
    exact h'.wider hn hm

/-- A character that is there is consumed. -/
theorem discardAccept {c : Char} {f f' : Unit → Reader β}
    (h : Mirrors s s' (f ()) (f' ()) x y Q) :
    Mirrors s s' (discard (Reader.accept c) >>= f) (discard (Reader.accept c) >>= f') (c :: x)
      (c :: y) Q := by
  intro cursor b d hrest hrun
  obtain ⟨_, e, hdiscard, hfa⟩ := bind_eq_ok.mp hrun
  obtain rfl := eq_of_discard_accept hrest hdiscard
  obtain ⟨y', hfa', hb⟩ := h _ _ _ rfl hfa
  exact ⟨y', bind_eq_ok.mpr ⟨(), _, discard_accept_of_begins rfl, hfa'⟩, hb⟩

end Mirrors

end Reader

open Reader

/-! ### Escapes -/

variable {s s' : Setting} {inClass : Bool} {n m : Nat} {x y : List Char} {c : Char}

theorem mirrors_readUnicodeEscape (hs : s.Alike s') (h : Respelled inClass n m x y) :
    Mirrors s s' readUnicodeEscape readUnicodeEscape x y fun _ => Respelled inClass n m := by
  apply Mirrors.read
  apply Mirrors.get
  intro c hc
  rw [hc, ← hs.flags]
  dsimp only
  by_cases hbraces : s.flags.unicode = true ∧ ∃ more, x = '{' :: more
  · obtain ⟨hunicode, more, rfl⟩ := hbraces
    rcases h.begins (c := '{') (by decide) with ⟨n', m', x, y, hn, hm, hx, rfl, h'⟩ | ⟨hx, -⟩
    · cases hx
      obtain ⟨digits, x', y', hx, hy, hrest⟩ := h'.takeDigits 16
      simp only [hunicode, hx, hy]
      apply Mirrors.moveTo
      split
      · exact .fail
      apply (Mirrors.acceptAny (by decide) hrest).bind
      intro closed x'' y'' hrest'
      split
      · exact .fail
      split
      · exact .fail
      · exact .pure (hrest'.wider hn hm)
    · exact absurd rfl (hx more)
  · have hx : ∀ more, s.flags.unicode = true → x = '{' :: more → False :=
      fun more hunicode heq => hbraces ⟨hunicode, more, heq⟩
    have hy : ∀ more, s.flags.unicode = true → y = '{' :: more → False := by
      rintro more hunicode rfl
      rcases h.begins (c := '{') (by decide) with ⟨-, -, x, -, -, -, heq, -, -⟩ | ⟨-, hy⟩
      · exact hx x hunicode heq
      · exact hy more rfl
    rcases h.readHex? 0 4 with ⟨hx', hy'⟩ | ⟨lead, x', y', hx', hy', hrest⟩
    · simp only [hx', hy']
      exact .pure h
    · simp only [hx', hy']
      apply Mirrors.moveTo
      rcases hrest.escapes (c := 'u') (by decide) with
        ⟨n', m', x', y', hn, hm, rfl, rfl, hmore⟩ | ⟨hx, hy⟩
      · cases s.flags.unicode && decide (0xD800 ≤ lead) && decide (lead < 0xDC00) with
        | false => exact .pure hrest
        | true =>
          rcases hmore.readHex? 0 4 with ⟨hx, hy⟩ | ⟨trail, x', y', hx, hy, hmore'⟩
          · simp only [hx, hy]
            exact .pure hrest
          · simp only [hx, hy]
            split
            · exact .moveTo (.pure (hmore'.wider hn hm))
            · exact .pure hrest
      · simp only [hx, hy, imp_self, implies_true]
        exact .pure hrest

/-- Without a control letter the `c` behind the backslash is read again. -/
theorem mirrors_rereadControl (s s' : Setting) (unicode : Bool) (h : Respelled inClass n m x y) :
    Mirrors s s'
      (if unicode then fail .invalidUnicodeEscape
        else do moveTo ('c' :: x); return Atom.unit 0x5C)
      (if unicode then fail .invalidUnicodeEscape
        else do moveTo ('c' :: y); return Atom.unit 0x5C) x y
      fun _ => Respelled inClass (n + 1) (m + 1) := by
  split
  · exact .fail
  · exact .moveTo (.pure (.ordinary (by decide) h))

theorem mirrors_readCharacterEscape (hs : s.Alike s') (inClass' : Bool) (c : Char)
    (h : Respelled inClass n m x y) :
    Mirrors s s' (readCharacterEscape inClass') (readCharacterEscape inClass') (c :: x) (c :: y)
      fun _ => Respelled inClass (n + 1) (m + 1) := by
  apply Mirrors.read
  apply Mirrors.get
  intro cursor hcursor
  rw [hcursor, ← hs.flags]
  simp only
  apply Mirrors.moveTo
  have hmono : Respelled inClass (n + 1) (m + 1) x y := h.mono (Nat.le_succ n) (Nat.le_succ m)
  have hone (atom : Atom) : Mirrors s s' (pure atom) (pure atom) x y fun _ =>
      Respelled inClass (n + 1) (m + 1) := .pure hmono
  split <;> try exact hone _
  · have hagain := mirrors_rereadControl s s' s.flags.unicode h
    cases h with
    | empty => exact hagain
    | ordinary _ hrest =>
      dsimp only
      split
      · exact .moveTo (.pure (hrest.mono (by omega) (by omega)))
      · exact hagain
    | _ => simpa +decide only [↓reduceIte] using hagain
  · rcases h.readHex? 0 2 with ⟨hx, hy⟩ | ⟨value, x', y', hx, hy, hrest⟩
    · simp only [hx, hy]
      split
      · exact .fail
      · exact hone _
    · simp only [hx, hy]
      exact .moveTo (.pure (hrest.mono (Nat.le_succ n) (Nat.le_succ m)))
  · apply (mirrors_readUnicodeEscape hs hmono).bind
    intro value x' y' hrest
    split
    · exact .pure hrest
    · split
      · exact .fail
      · exact .pure hrest
  · rw [h.any_isDigit]
    split
    · exact hone _
    split
    · exact hone _
    split
    · exact hone _
    split
    · rename_i hzero
      rw [Bool.and_eq_true, beq_iff_eq] at hzero
      obtain ⟨rfl, -⟩ := hzero
      have hdigits : Respelled inClass (n + 1) (m + 1) ('0' :: x) ('0' :: y) :=
        .ordinary (by decide) h
      obtain ⟨value, x', y', hx, hy, hrest⟩ := hdigits.readOctal 0 3
      rw [hx, hy]
      exact .moveTo (.pure hrest)
    split
    · split
      · exact hone _
      · exact .fail
    · exact hone _

theorem ordinary_of_decimal (hc : '1' ≤ c ∧ c ≤ '9') : Ordinary c :=
  ordinary_of (fun c => '1' ≤ c ∧ c ≤ '9') hc (by decide)

theorem mirrors_readDecimalEscape (hs : s.Alike s') (hc : '1' ≤ c ∧ c ≤ '9')
    (h : Respelled inClass n m x y) (start start' : List Char) :
    Mirrors s s' (readDecimalEscape (c :: x)) (readDecimalEscape (c :: y)) start start'
      fun _ => Respelled inClass (n + 1) (m + 1) := by
  apply Mirrors.read
  have hdigits : Respelled inClass (n + 1) (m + 1) (c :: x) (c :: y) :=
    .ordinary (ordinary_of_decimal hc) h
  obtain ⟨digits, x', y', hx, hy, hrest⟩ := hdigits.takeDigits 10
  simp only [hx, hy, ← hs.flags, ← hs.groups.count]
  split
  · exact .moveTo (.pure hrest)
  split
  · exact .moveTo .fail
  split
  · exact .moveTo (.pure (h.mono (Nat.le_succ n) (Nat.le_succ m)))
  · obtain ⟨value, x', y', hx, hy, hrest⟩ := hdigits.readOctal 0 3
    rw [hx, hy]
    exact .moveTo (.pure hrest)

theorem mirrors_readGroupName (h : Respelled inClass n m x y) :
    Mirrors s s' readGroupName readGroupName x y fun name x' y' =>
      (∀ c ∈ name.toList, Ordinary c) ∧ Respelled inClass n m x' y' := by
  apply Mirrors.get
  intro cursor hcursor
  rw [hcursor]
  dsimp only
  split
  · rename_i name x' htake
    obtain ⟨hname, y', htake', hrest⟩ := h.takeName (by simp) htake
    rw [htake']
    exact .moveTo (.pure ⟨hname, hrest⟩)
  · intro _ _ _ _ hrun
    cases hrun

theorem mirrors_readNamedReference (hs : s.Alike s') (h : Respelled inClass n m x y)
    (start start' : List Char) :
    Mirrors s s' (readNamedReference x) (readNamedReference y) start start'
      fun _ => Respelled inClass n m := by
  apply Mirrors.moveTo
  apply (Mirrors.acceptAny (by decide) h).bind
  intro opened x' y' hrest
  split
  · exact .fail
  · apply (mirrors_readGroupName hrest).bind
    rintro name x'' y'' ⟨hname, hrest'⟩
    apply Mirrors.read
    have hfind := hs.groups.named name hname
    cases hfound : s.groups.names.find? (·.1 == name) with
    | none => exact .fail
    | some entry =>
      obtain ⟨_, n⟩ := entry
      rw [hfound, Option.map_some] at hfind
      obtain ⟨⟨_, n'⟩, hfound', rfl⟩ := Option.map_eq_some_iff.mp hfind.symm
      rw [hfound']
      exact .pure hrest'

theorem mirrors_readEscape (hs : s.Alike s') (c : Char) (h : Respelled inClass n m x y) :
    Mirrors s s' readEscape readEscape (c :: x) (c :: y)
      fun _ => Respelled inClass (n + 1) (m + 1) := by
  apply Mirrors.read
  apply Mirrors.get
  intro cursor hcursor
  simp only [hcursor, ← hs.flags, ne_eq, ← hs.groups.unnamed]
  split
  · exact mirrors_readDecimalEscape hs ‹_› h _ _
  · split
    · exact mirrors_readNamedReference hs (h.mono (Nat.le_succ n) (Nat.le_succ m)) _ _
    · apply (mirrors_readCharacterEscape hs false c h).bind
      intro atom x' y' hrest
      split
      · exact .pure hrest
      · exact .pure hrest
      · exact .pure hrest

/-! ### Classes -/

theorem mirrors_readClassEscape (hs : s.Alike s') (c : Char) (h : Respelled true n m x y) :
    Mirrors s s' readClassEscape readClassEscape (c :: x) (c :: y)
      fun _ => Respelled true (n + 1) (m + 1) := by
  have hmono : Respelled true (n + 1) (m + 1) x y := h.mono (Nat.le_succ n) (Nat.le_succ m)
  apply Mirrors.read
  apply Mirrors.get
  intro cursor hcursor
  simp only [hcursor, ← hs.flags, List.head?_cons, List.tail_cons]
  split
  · rename_i d hdigit
    obtain ⟨hhead, hrange⟩ := Option.filter_eq_some_iff.mp hdigit
    obtain rfl := Option.some.inj hhead
    split
    · exact .fail
    split
    · exact .moveTo (.pure hmono)
    · have hdigits : Respelled true (n + 1) (m + 1) (c :: x) (c :: y) :=
        .ordinary (ordinary_of_decimal (of_decide_eq_true hrange)) h
      obtain ⟨value, x', y', hx, hy, hrest⟩ := hdigits.readOctal 0 3
      rw [hx, hy]
      exact .moveTo (.pure hrest)
  · split
    · exact .fail
    · apply (mirrors_readCharacterEscape hs true c h).bind
      intro atom x' y' hrest
      split
      · exact .fail
      · exact .pure hrest

theorem mirrors_readCharacterEscape_nil (inClass : Bool) :
    Mirrors s s' (readCharacterEscape inClass) (readCharacterEscape inClass) [] y
      fun _ _ _ => False := by
  apply Mirrors.read
  apply Mirrors.get
  intro cursor hcursor
  rw [hcursor]
  exact .fail

theorem mirrors_readClassEscape_nil (hs : s.Alike s') :
    Mirrors s s' readClassEscape readClassEscape [] [] fun _ _ _ => False := by
  apply Mirrors.read
  apply Mirrors.get
  intro cursor hcursor
  simp only [hcursor, ← hs.flags, List.head?_nil, Option.filter_none]
  split
  · exact .fail
  · exact (mirrors_readCharacterEscape_nil true).bind fun _ _ _ hfalse => hfalse.elim

theorem mirrors_readClassAtom (hs : s.Alike s') (h : Respelled true n m x y)
    (hclose : ∀ x', x ≠ ']' :: x') :
    Mirrors s s' readClassAtom readClassAtom x y fun _ => Shortened true n m := by
  apply Mirrors.get
  intro cursor hcursor
  rw [hcursor]
  dsimp only
  cases h with
  | empty => exact .fail
  | slash => exact .moveTo ((mirrors_readClassEscape_nil hs).imp fun _ _ _ hfalse => hfalse.elim)
  | @escape _ n m x y c h =>
    apply Mirrors.moveTo
    apply (mirrors_readClassEscape hs c h).imp
    intro atom x' y' hrest
    exact ⟨n + 1, m + 1, by omega, by omega, hrest⟩
  | opens h => exact .moveTo (.pure ⟨_, _, by omega, by omega, h⟩)
  | closes h => exact absurd rfl (hclose _)
  | ordinary hc h =>
    simp only [hc.ne.1, ↓reduceIte]
    split
    · exact .fail
    · exact .moveTo (.pure ⟨_, _, by omega, by omega, h⟩)

theorem mirrors_readClassItems (hs : s.Alike s') (opened opened' : Nat) {fuel fuel' : Nat}
    (hfuel : m < fuel') (ranges : List Interval) (h : Respelled true n m x y) :
    Mirrors s s' (readClassItems opened fuel ranges) (readClassItems opened' fuel' ranges) x y
      fun _ => Respelled false n m := by
  induction fuel generalizing fuel' n m x y ranges with
  | zero => exact .throw
  | succ fuel ih =>
    obtain ⟨fuel', rfl⟩ : ∃ k, fuel' = k + 1 := ⟨fuel' - 1, by omega⟩
    apply Mirrors.get
    intro cursor hcursor
    rw [hcursor]
    dsimp only
    rcases h.closing with ⟨rfl, rfl⟩ | ⟨x', y', rfl, rfl, hrest⟩ | ⟨⟨hx, hx'⟩, hy, hy'⟩
    · exact .throw
    · exact .moveTo (.pure hrest)
    · simp only
      apply (mirrors_readClassAtom hs h hx').bind
      rintro low x' y' ⟨n', m', hn, hm, hrest⟩
      apply Mirrors.get
      intro cursor' hcursor'
      rw [hcursor', ← hrest.startsRange]
      split
      · exact (ih (by omega) _ hrest).imp fun _ _ _ hrest' => hrest'.wider hn hm
      · rename_i hrange
        -- A range is read only if something else than the end of the class stands behind the dash.
        obtain ⟨more, rfl, hmore⟩ := exists_of_startsRange hrange
        rcases hrest.begins (c := '-') (by decide) with
          ⟨n'', m'', x', y', hn', hm', heq, rfl, hdash⟩ | ⟨hx, -⟩
        · cases heq
          apply Mirrors.discardAccept
          apply (mirrors_readClassAtom hs hdash hmore).bind
          rintro high x'' y'' ⟨n₁, m₁, hn₁, hm₁, hrest'⟩
          have hitems (ranges : List Interval) :
              Mirrors s s' (readClassItems opened fuel ranges) (readClassItems opened' fuel' ranges)
                x'' y'' fun _ => Respelled false n m :=
            (ih (by omega) ranges hrest').imp fun _ _ _ hdone => hdone.mono (by omega) (by omega)
          split
          · split
            · exact .fail
            · exact hitems _
          · apply Mirrors.read
            simp only [← hs.flags]
            split
            · exact .fail
            · exact hitems _
        · exact absurd rfl (hx more)

theorem mirrors_readClass (hs : s.Alike s') (h : Respelled true n m x y)
    (start start' : List Char) :
    Mirrors s s' (readClass x) (readClass y) start start' fun _ => Respelled false n m := by
  apply Mirrors.read
  apply Mirrors.position
  intro opened opened'
  apply Mirrors.moveTo
  apply (Mirrors.acceptAny (by decide) h).bind
  intro negated x' y' hrest
  apply Mirrors.get
  intro cursor hcursor
  simp only [hcursor, ← hs.flags]
  apply (mirrors_readClassItems hs opened opened' (Nat.lt_succ_self _) [] hrest.tight).bind
  intro ranges x'' y'' hrest'
  obtain ⟨hx, hy⟩ := hrest.length_le
  exact .pure (hrest'.mono hx hy)

/-! ### Quantifiers -/

theorem mirrors_readBounds (hs : s.Alike s') (h : Respelled inClass n m x y) :
    Mirrors s s' readBounds readBounds x y fun _ => Respelled inClass n m := by
  apply Mirrors.get
  intro cursor hcursor
  rw [hcursor]
  dsimp only
  have hstep {n' m' : Nat} {x' y' : List Char} (hn : n' < n) (hm : m' < m)
      (hrest : Respelled inClass n' m' x' y') (bounds : Option (Nat × Option Nat)) :
      Mirrors s s' (do moveTo x'; return bounds) (do moveTo y'; return bounds) x y
        fun _ => Respelled inClass n m :=
    .moveTo (.pure (hrest.wider hn hm))
  rcases h.begins (c := '*') (by decide) with
    ⟨_, _, x, y, hn, hm, rfl, rfl, hrest⟩ | ⟨hstar, hstar'⟩
  · exact hstep hn hm hrest _
  rcases h.begins (c := '+') (by decide) with
    ⟨_, _, x, y, hn, hm, rfl, rfl, hrest⟩ | ⟨hplus, hplus'⟩
  · exact hstep hn hm hrest _
  rcases h.begins (c := '?') (by decide) with
    ⟨_, _, x, y, hn, hm, rfl, rfl, hrest⟩ | ⟨hmark, hmark'⟩
  · exact hstep hn hm hrest _
  rcases h.begins (c := '{') (by decide) with
    ⟨_, _, x, y, hn, hm, rfl, rfl, hrest⟩ | ⟨hopen, hopen'⟩
  · rcases hrest.readBraces? with ⟨hx, hy⟩ | ⟨⟨low, high⟩, x', y', hx, hy, hrest'⟩
    · simp only [hx, hy]
      apply Mirrors.read
      rw [← hs.flags]
      split
      · exact .fail
      · exact .pure h
    · simp only [hx, hy]
      split
      · exact .fail
      · exact hstep hn hm hrest' _
  · simp only
    exact .pure h

theorem mirrors_readQuantifier (hs : s.Alike s') (h : Respelled inClass n m x y) :
    Mirrors s s' readQuantifier readQuantifier x y fun _ => Respelled inClass n m := by
  apply (mirrors_readBounds hs h).bind
  intro bounds x' y' hrest
  split
  · exact .pure hrest
  · apply (Mirrors.acceptAny (by decide) hrest).bind
    intro lazy x'' y'' hrest'
    exact .pure hrest'

end UnitRegex
