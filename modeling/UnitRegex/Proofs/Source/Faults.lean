import UnitRegex.Proofs.Source.Literals

/-!
Where the faults of options stand. Items are read one after the other, so the first item that is
not in order is the one at fault: as a whole, unless its value is neither true nor false. A position
counts characters, except that the key in front of such a value counts in bytes.
-/

namespace UnitRegex

/-- By how much the key in front of a wrong value is longer in bytes than in characters. -/
def Fault.keyExcess : Fault → Nat
  | .optionNotBoolean key _ => key.utf8ByteSize - key.length
  | _ => 0

theorem utf8ByteSize_ofList_cons (c : Char) (rest : List Char) :
    (String.ofList (c :: rest)).utf8ByteSize = c.utf8Size + (String.ofList rest).utf8ByteSize := by
  rw [← List.singleton_append, String.ofList_append, String.utf8ByteSize_append]
  simp

theorem length_le_utf8ByteSize_ofList (chars : List Char) :
    chars.length ≤ (String.ofList chars).utf8ByteSize := by
  induction chars with
  | nil => exact Nat.le_refl _
  | cons c rest ih =>
    have hc := c.utf8Size_pos
    rw [utf8ByteSize_ofList_cons, List.length_cons]
    omega

/-- As many bytes as characters are those that are ASCII. -/
theorem utf8ByteSize_ofList_le_iff (chars : List Char) :
    (String.ofList chars).utf8ByteSize ≤ chars.length ↔ ∀ c ∈ chars, c.toNat < 128 := by
  induction chars with
  | nil => simp
  | cons c rest ih =>
    have hrest := length_le_utf8ByteSize_ofList rest
    have hc := c.utf8Size_pos
    have hone : c.toNat < 128 ↔ c.utf8Size = 1 := by
      rw [Char.utf8Size_eq_one_iff, UInt32.le_iff_toNat_le]
      exact Nat.lt_succ_iff
    rw [List.forall_mem_cons, ← ih, hone, utf8ByteSize_ofList_cons, List.length_cons]
    omega

/-- The excess is zero exactly if the key is ASCII. -/
theorem Fault.keyExcess_eq_zero_iff (fault : Fault) :
    fault.keyExcess = 0 ↔
      ∀ key value, fault = .optionNotBoolean key value → ∀ c ∈ key.toList, c.toNat < 128 := by
  cases fault with
  | optionNotBoolean key value =>
    have hascii := utf8ByteSize_ofList_le_iff key.toList
    rw [String.ofList_toList, String.length_toList] at hascii
    simp [keyExcess, Nat.sub_eq_zero_iff_le, hascii]
  | _ => simp [keyExcess]

namespace Options

/-- An item that is read. -/
def InOrder (item : List Char) : Prop :=
  item = "ForceFallback=true".toList ∨ item = "ForceFallback=false".toList

/-- What is wrong with an item, and behind how many of its characters the fault stands. -/
inductive ItemFault : List Char → Fault → Nat → Prop
  | withoutValue {item : List Char} (h : '=' ∉ item) :
    ItemFault item (.optionWithoutValue (.ofList item)) 0
  | notBoolean {key value : List Char} (hkey : '=' ∉ key)
    (hvalue : value ≠ "true".toList ∧ value ≠ "false".toList) :
    ItemFault (key ++ '=' :: value) (.optionNotBoolean (.ofList key) (.ofList value))
      (key.length + 1)
  | unknown {key value : List Char} (hkey : '=' ∉ key)
    (hvalue : value = "true".toList ∨ value = "false".toList)
    (hunknown : key ≠ "ForceFallback".toList) :
    ItemFault (key ++ '=' :: value) (.unknownOption (.ofList key)) 0

/-- The first fault among the items of a text, and behind how many characters it stands. -/
inductive FaultAt : List Char → Fault → Nat → Prop
  | here {item back : List Char} {fault : Fault} {place : Nat} (hitem : ',' ∉ item)
    (hback : back = [] ∨ back.head? = some ',') (h : ItemFault item fault place) :
    FaultAt (item ++ back) fault place
  | later {item back : List Char} {fault : Fault} {place : Nat} (hitem : InOrder item)
    (h : FaultAt back fault place) :
    FaultAt (item ++ ',' :: back) fault (item.length + 1 + place)

variable {chars item : List Char} {fault : Fault} {place : Nat}

theorem ItemFault.le_length (h : ItemFault item fault place) : place ≤ item.length := by
  cases h <;> simp

theorem FaultAt.le_length (h : FaultAt chars fault place) : place ≤ chars.length := by
  induction h with
  | here _ _ h =>
    have hle := h.le_length
    simp only [List.length_append]
    omega
  | later _ _ ih =>
    simp only [List.length_append, List.length_cons]
    omega

theorem items_of_notMem (h : ',' ∉ item) : items item = [item] := by
  induction item with
  | nil => rfl
  | cons c rest ih =>
    obtain ⟨hc, hrest⟩ := not_or.mp (mt List.mem_cons.mpr h)
    rw [items, if_neg (Ne.symm hc), ih hrest]

theorem items_append (h : ',' ∉ item) (back : List Char) :
    items (item ++ ',' :: back) = item :: items back := by
  induction item with
  | nil => rfl
  | cons c rest ih =>
    obtain ⟨hc, hrest⟩ := not_or.mp (mt List.mem_cons.mpr h)
    rw [List.cons_append, items, if_neg (Ne.symm hc), ih hrest]

theorem items_ne_nil (chars : List Char) : items chars ≠ [] := by
  fun_cases items chars <;> simp

/-- The first item reaches up to the first comma, and the others stand behind that. -/
theorem items_eq_cons {rest : List (List Char)} (h : items chars = item :: rest) :
    ',' ∉ item ∧ ((rest = [] ∧ chars = item) ∨
      ∃ back, chars = item ++ ',' :: back ∧ items back = rest) := by
  induction chars generalizing item with
  | nil =>
    obtain ⟨rfl, rfl⟩ := List.cons.inj h
    simp
  | cons c more ih =>
    rw [items] at h
    split at h
    · rename_i hc
      obtain ⟨rfl, rfl⟩ := List.cons.inj h
      simp [hc]
    · rename_i hc
      split at h
      · rename_i hnil
        exact absurd hnil (items_ne_nil more)
      · rename_i first others hmore
        obtain ⟨rfl, rfl⟩ := List.cons.inj h
        obtain ⟨hfirst, hback⟩ := ih hmore
        refine ⟨by simp [hfirst, Ne.symm hc], ?_⟩
        simpa using hback

theorem boolean?_eq_none {value : List Char} (h : value ≠ "true".toList ∧ value ≠ "false".toList) :
    boolean? value = none := by
  rw [boolean?, if_neg h.1, if_neg h.2]

theorem exists_boolean? {value : List Char} (h : value = "true".toList ∨ value = "false".toList) :
    ∃ b, boolean? value = some b := by
  rcases h with rfl | rfl
  · exact ⟨true, rfl⟩
  · exact ⟨false, rfl⟩

theorem InOrder.comma_notMem (h : InOrder item) : ',' ∉ item := by
  rcases h with rfl | rfl <;> decide

theorem inOrder_or_itemFault (item : List Char) :
    InOrder item ∨ ∃ fault place, ItemFault item fault place := by
  cases hcut : item.dropWhile (· != '=') with
  | nil =>
    have hitem : '=' ∉ item := fun hmem => by simpa using List.dropWhile_eq_nil_iff.mp hcut _ hmem
    exact .inr ⟨_, _, .withoutValue hitem⟩
  | cons d value =>
    obtain rfl := head_dropWhile_ne hcut
    obtain ⟨hitem, hkey⟩ := cut_first_iff.mp ⟨rfl, hcut⟩
    generalize item.takeWhile (· != '=') = key at hitem hkey
    subst hitem
    by_cases hvalue : value = "true".toList ∨ value = "false".toList
    · by_cases hknown : key = "ForceFallback".toList
      · subst hknown
        rcases hvalue with rfl | rfl
        · exact .inl (.inl rfl)
        · exact .inl (.inr rfl)
      · exact .inr ⟨_, _, .unknown hkey hvalue hknown⟩
    · exact .inr ⟨_, _, .notBoolean hkey (not_or.mp hvalue)⟩

section

variable (o : Options) (position : Nat)

theorem exists_readItem (h : InOrder item) : ∃ p, o.readItem position item = .ok p := by
  rcases h with rfl | rfl
  · exact ⟨_, rfl⟩
  · exact ⟨_, rfl⟩

/-- What is reported stands at the fault of the item but for the bytes of the key. -/
theorem readItem_of_itemFault (h : ItemFault item fault place) :
    o.readItem position item = .error ⟨"", fault, position + place + fault.keyExcess⟩ := by
  cases h with
  | withoutValue hitem =>
    have hcut : item.dropWhile (· != '=') = [] := List.dropWhile_eq_nil_iff.mpr fun c hc => by
      simpa using fun heq : c = '=' => hitem (heq ▸ hc)
    rw [readItem, hcut]
    rfl
  | @notBoolean key value hkey hvalue =>
    obtain ⟨hfront, hcut⟩ := cut_first_iff.mpr ⟨Eq.refl (key ++ '=' :: value), hkey⟩
    have hlength := length_le_utf8ByteSize_ofList key
    have hexcess : position + (String.ofList key).utf8ByteSize + 1 =
        position + (key.length + 1) +
          ((String.ofList key).utf8ByteSize - (String.ofList key).length) := by
      rw [String.length_ofList]
      omega
    simp only [readItem, hfront, hcut, boolean?_eq_none hvalue, Fault.keyExcess, hexcess]
  | @unknown key value hkey hvalue hunknown =>
    obtain ⟨hfront, hcut⟩ := cut_first_iff.mpr ⟨Eq.refl (key ++ '=' :: value), hkey⟩
    obtain ⟨b, hb⟩ := exists_boolean? hvalue
    simp only [readItem, hfront, hcut, hb, if_neg hunknown]
    rfl

theorem readItems_of_faultAt (h : FaultAt chars fault place) :
    o.readItems position (items chars) =
      .error ⟨"", fault, position + place + fault.keyExcess⟩ := by
  induction h generalizing o position with
  | @here item back fault place hcomma hback h =>
    obtain ⟨rest, hrest⟩ : ∃ rest, items (item ++ back) = item :: rest := by
      rcases hback with rfl | hback
      · exact ⟨[], by rw [List.append_nil, items_of_notMem hcomma]⟩
      · obtain ⟨back, rfl⟩ := List.head?_eq_some_iff.mp hback
        exact ⟨items back, items_append hcomma back⟩
    rw [hrest, readItems, readItem_of_itemFault o position h]
  | @later item back fault place hitem _ ih =>
    obtain ⟨p, hp⟩ := exists_readItem o position hitem
    rw [items_append hitem.comma_notMem, readItems, hp]
    dsimp only
    rw [ih]
    simp only [Nat.add_assoc]

variable {o position} in
/-- Items that are not all in order have a first fault. -/
theorem exists_faultAt {e : SyntaxError} (h : o.readItems position (items chars) = .error e) :
    ∃ fault place, FaultAt chars fault place := by
  induction hitems : items chars generalizing chars o position with
  | nil => exact absurd hitems (items_ne_nil chars)
  | cons item rest ih =>
    obtain ⟨hcomma, hback⟩ := items_eq_cons hitems
    rcases inOrder_or_itemFault item with hitem | ⟨fault, place, hfault⟩
    · obtain ⟨p, hp⟩ := exists_readItem o position hitem
      rw [hitems, readItems, hp] at h
      rcases hback with ⟨rfl, -⟩ | ⟨back, rfl, rfl⟩
      · cases h
      · obtain ⟨fault, place, hfault⟩ := ih h rfl
        exact ⟨_, _, .later hitem hfault⟩
    · rcases hback with ⟨-, rfl⟩ | ⟨back, rfl, -⟩
      · exact ⟨fault, place, by simpa using FaultAt.here hcomma (.inl rfl) hfault⟩
      · exact ⟨fault, place, .here hcomma (.inr rfl) hfault⟩

end

/-- A text has one first fault at most. -/
theorem FaultAt.unique {fault' : Fault} {place' : Nat} (h : FaultAt chars fault place)
    (h' : FaultAt chars fault' place') : fault' = fault ∧ place' = place := by
  have heq := (readItems_of_faultAt {} 0 h).symm.trans (readItems_of_faultAt {} 0 h')
  simp only [Except.error.injEq, SyntaxError.mk.injEq, true_and] at heq
  obtain ⟨rfl, hposition⟩ := heq
  exact ⟨rfl, by omega⟩

/-- Options are rejected for their first fault. It is reported where it stands, unless there are
other than ASCII characters in the key in front of a wrong value. -/
theorem faultAt_of_parse {s : String} {e : SyntaxError} (h : parse s = .error e) :
    ∃ place, FaultAt s.toList e.fault place ∧
      (∀ fault' place', FaultAt s.toList fault' place' → fault' = e.fault ∧ place' = place) ∧
      place ≤ s.length ∧ e.position = place + e.fault.keyExcess ∧
      (e.position = place ↔ ∀ key value, e.fault = .optionNotBoolean key value →
        ∀ c ∈ key.toList, c.toNat < 128) := by
  rw [parse] at h
  split at h
  · cases h
  · obtain ⟨fault, place, hfault⟩ := exists_faultAt h
    rw [readItems_of_faultAt _ _ hfault, Nat.zero_add] at h
    obtain rfl := Except.error.inj h
    refine ⟨place, hfault, fun _ _ => hfault.unique, hfault.le_length, rfl, ?_⟩
    rw [← Fault.keyExcess_eq_zero_iff]
    exact Nat.add_eq_left

/-- The second item has a wrong value, and its key is ASCII. -/
theorem faultAt_of_parse_ascii :
    FaultAt "ForceFallback=true,ForceFallback=yes".toList
      (.optionNotBoolean "ForceFallback" "yes") 33 := by
  have rejected : parse "ForceFallback=true,ForceFallback=yes" =
      .error ⟨"", .optionNotBoolean "ForceFallback" "yes", 33⟩ := by decide
  obtain ⟨place, hfault, -, -, hposition, -⟩ := faultAt_of_parse rejected
  -- This key has as many bytes as characters.
  have hplace : 33 = place := hposition
  exact hplace ▸ hfault

/-- The value stands behind three characters. What is reported is a place behind the whole text. -/
theorem position_of_accented_key :
    parse "éé=x" = .error ⟨"", .optionNotBoolean "éé" "x", 5⟩ ∧
      FaultAt "éé=x".toList (.optionNotBoolean "éé" "x") 3 ∧
      ¬FaultAt "éé=x".toList (.optionNotBoolean "éé" "x") 5 ∧ "éé=x".length < 5 := by
  have hfault : FaultAt ("éé=x".toList ++ []) (.optionNotBoolean "éé" "x") 3 :=
    .here (by decide) (.inl rfl)
      (.notBoolean (by decide : '=' ∉ "éé".toList)
        (by decide : "x".toList ≠ "true".toList ∧ "x".toList ≠ "false".toList))
  refine ⟨by decide, hfault, fun h => ?_, by decide⟩
  exact absurd h.le_length (by decide)

end Options
end UnitRegex
