import UnitRegex.Pattern.Scanner
import UnitRegex.Proofs.Pattern.Mirrors

/-!
Scanning by position against reading a list of characters. The position of a scanner is the number
of characters that are no longer ahead. A scanner follows a reader if it returns with the same
result wherever it is started, in front of what the reader leaves, or stops with the same fault at a
position of the pattern.
-/

namespace UnitRegex

/-- A scanner that is bound to another ends where that one does, or goes on with what it gives. -/
theorem Scan.run_bind {α β : Type} (m : Scan α) (f : α → Scan β) (x : Spot) :
    ((m >>= f) x).run = (m x).run.bind fun
      | .error e => some (.error e)
      | .ok y => (f y.1 y.2).run := by
  show Option.bind _ _ = Option.bind _ _
  congr 1
  funext e
  cases e <;> rfl

theorem Scan.fail_bind {α β : Type} (fault : Fault) (f : α → Scan β) :
    (Scan.fail fault >>= f) = Scan.fail fault := rfl

namespace PatternText

variable {α β : Type} {s : PatternText} {depth : Nat} {ahead ahead' rest chars : List Char}
  {c : Cursor}

/-- What stays fixed for the reader. -/
def setting (s : PatternText) : Setting := ⟨s.flags, s.chars.size, s.groups⟩

/-- The spot of a scanner that has the characters of `ahead` still to read, and has collected what a
cursor has. -/
def spot (s : PatternText) (depth : Nat) (ahead : List Char) (c : Cursor) : Spot :=
  ⟨s.chars.size - ahead.length, depth, c.nextGroup, c.named, c.context⟩

/-- In front of some characters a scanner gives a result and comes in front of others. Apart from
the position it changes nothing. -/
def Steps (s : PatternText) (ahead : List Char) (m : Scan α) (a : α) (ahead' : List Char) : Prop :=
  ahead <:+ s.chars.toList → ahead' <:+ s.chars.toList ∧
    ∀ depth c, (m (s.spot depth ahead c)).run = some (.ok (a, s.spot depth ahead' c))

/-- In front of some characters a scanner does what a reader does from a cursor. What is given, and
the number of characters that are left, have a property. -/
def Follows (s : PatternText) (depth : Nat) (ahead : List Char) (c : Cursor) (m : Scan α)
    (r : Reader α) (P : α → Nat → Prop) : Prop :=
  ahead <:+ s.chars.toList →
    match r s.setting c with
    | .error e => (m (s.spot depth ahead c)).run = some (.error e) ∧ e.2 ≤ s.chars.size
    | .ok (a, c') =>
      (m (s.spot depth ahead c)).run = some (.ok (a, s.spot depth c'.rest c')) ∧
        c'.rest <:+ s.chars.toList ∧ P a c'.rest.length

/-- In front of the same characters a scanner follows a reader, whatever else was collected. -/
def Tracks (s : PatternText) (depth : Nat) (chars : List Char) (m : Scan α) (r : Reader α)
    (P : α → Nat → Prop) : Prop :=
  ∀ c : Cursor, s.Follows depth chars { c with rest := chars } m r P

/-! ### Characters ahead -/

theorem length_le (h : ahead <:+ s.chars.toList) : ahead.length ≤ s.chars.size := by
  have hle := h.length_le
  rwa [Array.length_toList] at hle

theorem getElem?_ahead (h : ahead <:+ s.chars.toList) (i : Nat) :
    s.chars[s.chars.size - ahead.length + i]? = ahead[i]? := by
  obtain ⟨front, hfront⟩ := h
  have hsize : s.chars.size = front.length + ahead.length := by
    rw [← Array.length_toList, ← hfront, List.length_append]
  rw [hsize, Nat.add_sub_cancel, ← Array.getElem?_toList, ← hfront,
    List.getElem?_append_right (Nat.le_add_right _ _), Nat.add_sub_cancel_left]

theorem getElem?_first (h : ahead <:+ s.chars.toList) :
    s.chars[s.chars.size - ahead.length]? = ahead.head? := by
  rw [List.head?_eq_getElem?]
  exact getElem?_ahead h 0

theorem head?_ne_some {x : Char} (h : ∀ rest, chars ≠ x :: rest) : chars.head? ≠ some x := by
  intro hhead
  obtain ⟨rest, hrest⟩ := List.head?_eq_some_iff.mp hhead
  exact h rest hrest

theorem suffix_tail {x : Char} (h : (x :: rest) <:+ s.chars.toList) : rest <:+ s.chars.toList :=
  (List.suffix_cons x rest).trans h

/-- The position in front of some of the characters ahead. -/
theorem position_drop (h : ahead <:+ s.chars.toList) (k : Nat) (hk : k ≤ ahead.length) :
    s.chars.size - ahead.length + k = s.chars.size - (ahead.drop k).length := by
  have hle := length_le h
  rw [List.length_drop]
  omega

theorem position_tail {x : Char} (h : (x :: rest) <:+ s.chars.toList) :
    s.chars.size - (x :: rest).length + 1 = s.chars.size - rest.length :=
  position_drop h 1 (Nat.succ_le_succ (Nat.zero_le _))

theorem position_lt {x : Char} (h : (x :: rest) <:+ s.chars.toList) :
    s.chars.size - (x :: rest).length < s.chars.size := by
  have hle := length_le h
  rw [List.length_cons] at hle ⊢
  omega

/-! ### Steps -/

namespace Steps

theorem bind {m : Scan α} {f : α → Scan β} {a : α} {b : β} {between : List Char}
    (hm : s.Steps ahead m a between) (hf : s.Steps between (f a) b ahead') :
    s.Steps ahead (m >>= f) b ahead' := by
  intro h
  obtain ⟨hbetween, hm⟩ := hm h
  obtain ⟨hafter, hf⟩ := hf hbetween
  refine ⟨hafter, fun depth c => ?_⟩
  rw [Scan.run_bind, hm]
  exact hf depth c

theorem pure (a : α) : s.Steps ahead (Pure.pure a) a ahead := fun h => ⟨h, fun _ _ => rfl⟩

/-- What is done may depend on which characters are ahead. -/
theorem of_suffix {m : Scan α} {a : α} (h : ahead <:+ s.chars.toList → s.Steps ahead m a ahead') :
    s.Steps ahead m a ahead' := fun hahead => h hahead hahead

theorem position : s.Steps ahead Scan.position (s.chars.size - ahead.length) ahead :=
  fun h => ⟨h, fun _ _ => rfl⟩

theorem minus {a b : Nat} (h : b ≤ a) : s.Steps ahead (Scan.minus a b) (a - b) ahead := by
  rw [Scan.minus, if_pos h]
  exact pure _

theorem ofOption {o : Option α} {a : α} (h : o = some a) :
    s.Steps ahead (Scan.ofOption o) a ahead := by
  rw [h]
  exact pure _

theorem peekAt (i : Nat) : s.Steps ahead (s.peekAt i) ahead[i]? ahead :=
  fun h => ⟨h, fun _ _ => by rw [← getElem?_ahead h]; rfl⟩

theorem peek : s.Steps ahead s.peek ahead.head? ahead := by
  rw [List.head?_eq_getElem?]
  exact peekAt 0

theorem goTo (h : ahead' <:+ s.chars.toList) :
    s.Steps ahead (s.goTo (s.chars.size - ahead'.length)) () ahead' := by
  refine fun _ => ⟨h, fun depth c => ?_⟩
  rw [PatternText.goTo, if_pos (Nat.sub_le _ _)]
  rfl

theorem move (k : Nat) (hk : k ≤ ahead.length) :
    s.Steps ahead (s.move k) () (ahead.drop k) := by
  apply of_suffix
  intro h
  apply position.bind
  rw [position_drop h k hk]
  exact goTo ((List.drop_suffix k ahead).trans h)

theorem moveOne {x : Char} : s.Steps (x :: rest) (s.move 1) () rest :=
  move 1 (Nat.succ_le_succ (Nat.zero_le _))

/-- The character in front of those ahead is put back. -/
theorem moveBack {x : Char} (h : (x :: rest) <:+ s.chars.toList) :
    s.Steps rest s.moveBack () (x :: rest) := by
  have hle := length_le h
  rw [List.length_cons] at hle
  apply position.bind
  apply (minus (by omega)).bind
  have hback : s.Steps rest (s.goTo (s.chars.size - (x :: rest).length)) () (x :: rest) := goTo h
  rwa [List.length_cons, Nat.sub_add_eq] at hback

theorem advance {x : Char} : s.Steps (x :: rest) s.advance (some x) rest :=
  peek.bind (moveOne.bind (pure _))

theorem advance_nil : s.Steps [] s.advance none [] := peek.bind (pure _)

theorem accept {x : Char} : s.Steps (x :: rest) (s.accept x) true rest := by
  apply peek.bind
  rw [if_pos (by rfl)]
  exact moveOne.bind (pure _)

theorem accept_not {x : Char} (h : ∀ rest, ahead ≠ x :: rest) :
    s.Steps ahead (s.accept x) false ahead := by
  apply peek.bind
  rw [if_neg]
  · exact pure _
  · exact head?_ne_some h

theorem looksAt (h : ahead <:+ s.chars.toList) (chars : List Char) :
    s.looksAt (s.chars.size - ahead.length) chars = chars.isPrefixOf ahead := by
  induction chars generalizing ahead with
  | nil => cases ahead <;> rfl
  | cons x chars ih =>
    rw [PatternText.looksAt, getElem?_first h]
    cases ahead with
    | nil => simp
    | cons y rest =>
      rw [position_tail h, ih (suffix_tail h)]
      simp [List.isPrefixOf, Bool.beq_comm (a := y)]

theorem lookingAt (chars : List Char) :
    s.Steps ahead (s.lookingAt chars) (chars.isPrefixOf ahead) ahead :=
  fun h => ⟨h, fun depth c => by rw [← looksAt h]; rfl⟩

end Steps

/-! ### Scanners and readers -/

namespace Follows

variable {P : α → Nat → Prop} {Q : β → Nat → Prop}

theorem of_suffix {m : Scan α} {r : Reader α}
    (h : ahead <:+ s.chars.toList → s.Follows depth ahead c m r P) :
    s.Follows depth ahead c m r P := fun hahead => h hahead hahead

/-- A step of the scanner that the reader does not take. -/
theorem step {m : Scan α} {a : α} {f : α → Scan β} {r : Reader β}
    (hm : s.Steps ahead m a ahead') (hf : s.Follows depth ahead' c (f a) r Q) :
    s.Follows depth ahead c (m >>= f) r Q := by
  intro h
  obtain ⟨hafter, hm⟩ := hm h
  rw [Scan.run_bind, hm]
  exact hf hafter

/-- The scanner comes where the reader is. -/
theorem done {m : Scan α} {a : α} (hm : s.Steps ahead m a ahead') (h : P a ahead'.length) :
    s.Follows depth ahead { c with rest := ahead' } m (Pure.pure a) P := by
  intro hahead
  obtain ⟨hafter, hm⟩ := hm hahead
  exact ⟨hm depth c, hafter, h⟩

theorem read {m : Scan α} {f : Setting → Reader α}
    (h : s.Follows depth ahead c m (f s.setting) P) :
    s.Follows depth ahead c m (MonadReader.read >>= f) P := h

theorem get {m : Scan α} {f : Cursor → Reader α} (h : s.Follows depth ahead c m (f c) P) :
    s.Follows depth ahead c m (MonadState.get >>= f) P := h

theorem moveTo {m : Scan α} {f : Unit → Reader α}
    (h : s.Follows depth ahead { c with rest := rest } m (f ()) P) :
    s.Follows depth ahead c m (Reader.moveTo rest >>= f) P := h

/-- The reader consumes a character that it has seen. -/
theorem skip {m : Scan β} {x : Char} {g : Unit → Reader β} (hc : c.rest = x :: rest)
    (h : s.Follows depth ahead { c with rest := rest } m (g ()) Q) :
    s.Follows depth ahead c m (discard (Reader.accept x) >>= g) Q := by
  have hread : (discard (Reader.accept x) >>= g) s.setting c =
      g () s.setting { c with rest := rest } := by
    show (discard (Reader.accept x) : Reader Unit) _ _ >>= (fun y => g y.1 _ y.2) = _
    rw [Reader.discard_accept_of_begins hc]
    rfl
  intro hahead
  rw [hread]
  exact h hahead

/-- Both look up which names are taken. -/
theorem named {f : Spot → Scan β} {g : Cursor → Reader β}
    (h : s.Follows depth ahead c (f (s.spot depth ahead c)) (g c) Q) :
    s.Follows depth ahead c (MonadState.get >>= f) (MonadState.get >>= g) Q := h

/-- Both take a name. -/
theorem addName {x : String × Nat} {f : Unit → Scan β} {g : Unit → Reader β}
    (h : s.Follows depth ahead { c with named := c.named ++ [x] } (f ()) (g ()) Q) :
    s.Follows depth ahead c
      ((modify fun y => { y with named := y.named ++ [x] }) >>= f)
      ((modify fun y => { y with named := y.named ++ [x] }) >>= g) Q := h

theorem throw {e : Fault × Nat} (he : e.2 ≤ s.chars.size) :
    s.Follows depth ahead c (MonadExcept.throw e : Scan α) (MonadExcept.throw e) P :=
  fun _ => ⟨rfl, he⟩

theorem imp {P' : α → Nat → Prop} {m : Scan α} {r : Reader α} (h : s.Follows depth ahead c m r P)
    (himp : ∀ a left, P a left → P' a left) : s.Follows depth ahead c m r P' := by
  intro hahead
  have hrun := h hahead
  split at hrun
  · exact hrun
  · exact ⟨hrun.1, hrun.2.1, himp _ _ hrun.2.2⟩

/-- Both branch alike. -/
theorem ite {p : Prop} [Decidable p] {m m' : Scan α} {r r' : Reader α}
    (h : p → s.Follows depth ahead c m r P) (h' : ¬p → s.Follows depth ahead c m' r' P) :
    s.Follows depth ahead c (if p then m else m') (if p then r else r') P := by
  split
  · rename_i hp
    exact h hp
  · rename_i hp
    exact h' hp

end Follows

namespace Tracks

variable {P : α → Nat → Prop} {Q : β → Nat → Prop}

theorem pure {a : α} (h : P a chars.length) :
    s.Tracks depth chars (Pure.pure a) (Pure.pure a) P := fun _ hchars => ⟨rfl, hchars, h⟩

theorem fail {fault : Fault} :
    s.Tracks depth chars (Scan.fail fault : Scan α) (Reader.fail fault) P :=
  fun _ _ => ⟨rfl, Nat.sub_le _ _⟩

theorem bind {m : Scan α} {r : Reader α} {f : α → Scan β} {g : α → Reader β}
    (h : s.Tracks depth chars m r P)
    (hf : ∀ a rest, P a rest.length → s.Tracks depth rest (f a) (g a) Q) :
    s.Tracks depth chars (m >>= f) (r >>= g) Q := by
  intro c hchars
  have hm := h c hchars
  have hread : (r >>= g) s.setting { c with rest := chars } =
      r s.setting { c with rest := chars } >>= fun x => g x.1 s.setting x.2 := rfl
  rw [Scan.run_bind, hread]
  cases hr : r s.setting { c with rest := chars } with
  | error e =>
    rw [hr] at hm
    rw [hm.1]
    exact ⟨rfl, hm.2⟩
  | ok x =>
    rw [hr] at hm
    obtain ⟨hrun, hrest, hP⟩ := hm
    rw [hrun]
    exact hf x.1 x.2.rest hP x.2 hrest

theorem imp {P' : α → Nat → Prop} {m : Scan α} {r : Reader α} (h : s.Tracks depth chars m r P)
    (himp : ∀ a left, P a left → P' a left) : s.Tracks depth chars m r P' :=
  fun c => (h c).imp himp

/-- A step of the scanner that the reader takes later. -/
theorem step {m : Scan α} {a : α} {f : α → Scan β} {r : Reader β}
    (hm : s.Steps chars m a chars) (hf : s.Tracks depth chars (f a) r Q) :
    s.Tracks depth chars (m >>= f) r Q := fun c => (hf c).step hm

theorem read {m : Scan α} {f : Setting → Reader α} (h : s.Tracks depth chars m (f s.setting) P) :
    s.Tracks depth chars m (MonadReader.read >>= f) P := h

theorem get {m : Scan α} {f : Cursor → Reader α}
    (h : ∀ c : Cursor, c.rest = chars → s.Follows depth chars c m (f c) P) :
    s.Tracks depth chars m (MonadState.get >>= f) P := fun c => h { c with rest := chars } rfl

/-- A reader that has moved is in front of the characters it has moved to. -/
theorem moved {m : Scan α} {r : Reader α} (h : s.Tracks depth chars m r P) :
    s.Follows depth chars { c with rest := chars } m r P := h c

/-- Both come in front of the same characters. -/
theorem follows {m : Scan α} {r : Reader α} (h : s.Tracks depth chars m r P)
    (hc : c.rest = chars) : s.Follows depth chars c m r P := by
  obtain rfl := hc
  exact h c

theorem ite {p : Prop} [Decidable p] {m m' : Scan α} {r r' : Reader α}
    (h : p → s.Tracks depth chars m r P) (h' : ¬p → s.Tracks depth chars m' r' P) :
    s.Tracks depth chars (if p then m else m') (if p then r else r') P :=
  fun c => .ite (fun hp => h hp c) fun hp => h' hp c

/-- Both know the position. -/
theorem positions {f : Nat → Scan β} {g : Nat → Reader β}
    (h : ∀ n, n ≤ s.chars.size → s.Tracks depth chars (f n) (g n) Q) :
    s.Tracks depth chars (Scan.position >>= f) (Reader.position >>= g) Q :=
  fun c => h _ (Nat.sub_le _ _) c

theorem widenContext {f : Unit → Scan β} {g : Unit → Reader β} {units : Nat}
    (h : s.Tracks depth chars (f ()) (g ()) Q) :
    s.Tracks depth chars (Scan.widenContext units >>= f) (Reader.widenContext units >>= g) Q :=
  fun c => h { c with context := max c.context units }

theorem newGroup {f : Nat → Scan β} {g : Nat → Reader β}
    (h : ∀ n, s.Tracks depth chars (f n) (g n) Q) :
    s.Tracks depth chars (Scan.newGroup >>= f) (Reader.newGroup >>= g) Q :=
  fun c => h c.nextGroup { c with nextGroup := c.nextGroup + 1 }

/-- The next character is there or not. -/
theorem accept (x : Char) :
    s.Tracks depth chars (s.accept x) (Reader.accept x) fun found left =>
      (found = true → left < chars.length) ∧ (found = false → left = chars.length) := by
  intro c
  apply Follows.get
  match chars with
  | [] => exact .done (Steps.accept_not (by simp)) ⟨nofun, fun _ => rfl⟩
  | y :: rest =>
    dsimp only
    split
    · rename_i hxy
      obtain rfl := hxy
      exact .moveTo (.done Steps.accept ⟨fun _ => Nat.lt_succ_self _, nofun⟩)
    · rename_i hxy
      apply Follows.done (Steps.accept_not fun rest' he => hxy (List.cons.inj he).1.symm)
      exact ⟨nofun, fun _ => rfl⟩

/-- One more parenthesis is open for as long as the scanner runs. -/
theorem nested {m : Scan α} {r : Reader α} (hdepth : depth < nestingLimit)
    (h : s.Tracks (depth + 1) chars m r P) :
    s.Tracks depth chars (do Scan.enter; let a ← m; Scan.leave; return a) r P := by
  have henter (c : Cursor) : (Scan.enter (s.spot depth chars c)).run =
      some (.ok ((), s.spot (depth + 1) chars c)) := by
    show ((if depth = nestingLimit then Scan.fail .tooDeeplyNested
      else modify fun x => { x with depth := x.depth + 1 } : Scan Unit) _).run = _
    rw [if_neg (Nat.ne_of_lt hdepth)]
    rfl
  intro c hchars
  have hm := h c hchars
  rw [Scan.run_bind, henter]
  dsimp only [Option.bind_some]
  rw [Scan.run_bind]
  cases hr : r s.setting { c with rest := chars } with
  | error e =>
    rw [hr] at hm
    rw [hm.1]
    exact ⟨rfl, hm.2⟩
  | ok x =>
    rw [hr] at hm
    rw [hm.1]
    exact ⟨rfl, hm.2⟩

/-- No more parentheses may be open. -/
theorem full {f : Unit → Scan α} :
    s.Tracks nestingLimit chars (Scan.enter >>= f) (Reader.fail .tooDeeplyNested) P := by
  intro c _
  have henter : (Scan.enter (s.spot nestingLimit chars { c with rest := chars })).run =
      some (.error (.tooDeeplyNested, s.chars.size - chars.length)) := by
    show ((if nestingLimit = nestingLimit then Scan.fail .tooDeeplyNested
      else modify fun x => { x with depth := x.depth + 1 } : Scan Unit) _).run = _
    rw [if_pos rfl]
    rfl
  rw [Scan.run_bind, henter]
  exact ⟨rfl, Nat.sub_le _ _⟩

end Tracks

end PatternText

end UnitRegex
