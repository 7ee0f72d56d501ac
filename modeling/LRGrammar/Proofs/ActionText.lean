import LRGrammar.Action
import LRGrammar.Proofs.Joined

/-!
# LRGrammar.Proofs.ActionText

How an action is written, character by character, and how it is read back.  A tag is any text
and may look like what stands around it; but no place contains a bracket, so the tag ends
at the last bracket that opens.  Behind that bracket every dollar sign begins a place.

* `Action.mem_text` — which characters an action is written with;
* `Action.readPlaces_placesText` — the places can be read off their text;
* `Action.reading_text` — and the action off its own;
* `Action.text_unambiguous` — so actions that are written alike are the same.
-/

namespace LRGrammar

namespace Action

variable {a b : Action} {c : Char} {position : Nat} {places : List Nat} {tag : Symbol}

/-! ## places -/

theorem toList_placeText : (placeText position).toList = '$' :: Nat.toDigits 10 position := by
  rw [placeText, String.toList_append, Nat.toList_repr]
  rfl

/-- Numbers are written with digits. -/
theorem isDigit_of_mem_repr (h : c ∈ position.repr.toList) : c.isDigit := by
  rw [Nat.toList_repr] at h
  exact Nat.isDigit_of_mem_toDigits (by decide) (by decide) h

/-- A place is written with a dollar sign and digits. -/
theorem mem_placeText (h : c ∈ (placeText position).toList) : c = '$' ∨ c.isDigit := by
  rw [placeText, String.toList_append, List.mem_append] at h
  rcases h with h | h
  · exact .inl (by simpa using h)
  · exact .inr (isDigit_of_mem_repr h)

/-- The places of a constructor as they are written. -/
def placesText (places : List Nat) : List Char :=
  [',', ' '].intercalate (places.map fun position => (placeText position).toList)

/-- Places are written with digits, and dollar signs, commas and blanks between them. -/
theorem mem_placesText (h : c ∈ placesText places) : c ∈ [',', ' ', '$'] ∨ c.isDigit := by
  rcases mem_or_mem_of_mem_intercalate h with h | ⟨part, hpart, h⟩
  · exact .inl (List.mem_append_left ['$'] h)
  · obtain ⟨position, -, rfl⟩ := List.mem_map.mp hpart
    refine (mem_placeText h).imp_left fun heq => ?_
    rw [heq]
    decide

/-! ## actions -/

theorem toList_text_rename : (rename position).text.toList = '$' :: Nat.toDigits 10 position :=
  toList_placeText

theorem toList_text_construct :
    (construct tag places).text.toList = tag.toList ++ '(' :: (placesText places ++ [')']) := by
  simp [text, placesText, String.toList_intercalate, Function.comp_def]

/-- An action is written with its tag, places, and brackets around these. -/
theorem mem_text (h : c ∈ a.text.toList) :
    c ∈ [',', ' ', '$', '(', ')'] ∨ c.isDigit ∨
      ∃ tag places, a = construct tag places ∧ c ∈ tag.toList := by
  cases a with
  | rename position =>
      rcases mem_placeText h with rfl | hdigit
      · exact .inl (by decide)
      · exact .inr (.inl hdigit)
  | construct tag places =>
      rw [toList_text_construct, List.mem_append, List.mem_cons, List.mem_append,
        List.mem_singleton] at h
      rcases h with htag | rfl | hplaces | rfl
      · exact .inr (.inr ⟨tag, places, rfl, htag⟩)
      · exact .inl (by decide)
      · rcases mem_placesText hplaces with hmem | hdigit
        · exact .inl (List.mem_append_left ['(', ')'] hmem)
        · exact .inr (.inl hdigit)
      · exact .inl (by decide)

/-! ## reading -/

/-- The places in a text: the number behind each dollar sign. -/
def readPlaces : List Char → List Nat
  | [] => []
  | c :: cs =>
      if c = '$' then Nat.ofDigitChars 10 (cs.takeWhile Char.isDigit) 0 :: readPlaces cs
      else readPlaces cs

theorem readPlaces_append {cs rest : List Char} (h : '$' ∉ cs) :
    readPlaces (cs ++ rest) = readPlaces rest := by
  induction cs with
  | nil => rfl
  | cons c cs ih =>
      rw [List.mem_cons, not_or] at h
      rw [List.cons_append, readPlaces, if_neg (Ne.symm h.1), ih h.2]

/-- A place is read if no digit follows it. -/
theorem readPlaces_placeText_append {rest : List Char} (h : ∀ c ∈ rest.head?, c.isDigit = false) :
    readPlaces ((placeText position).toList ++ rest) = position :: readPlaces rest := by
  have digits : ∀ c ∈ Nat.toDigits 10 position, c.isDigit := fun c hc =>
    Nat.isDigit_of_mem_toDigits (by decide) (by decide) hc
  have no_dollar : '$' ∉ Nat.toDigits 10 position := fun hc => absurd (digits '$' hc) (by decide)
  have hnumber : (Nat.toDigits 10 position ++ rest).takeWhile Char.isDigit =
      Nat.toDigits 10 position := by
    rw [List.takeWhile_append_of_pos digits]
    cases rest with
    | nil => exact List.append_nil _
    | cons c rest =>
        rw [List.takeWhile_cons_of_neg (by simp [h c rfl]), List.append_nil]
  rw [toList_placeText, List.cons_append, readPlaces, if_pos rfl, hnumber,
    Nat.ofDigitChars_ten_toDigits, readPlaces_append no_dollar]

/-- The places of a constructor can be read off their text. -/
theorem readPlaces_placesText (places : List Nat) :
    readPlaces (placesText places ++ [')']) = places := by
  induction places with
  | nil => rfl
  | cons position places ih =>
      cases places with
      | nil =>
          have htext : placesText [position] = (placeText position).toList := by
            simp [placesText]
          rw [htext, readPlaces_placeText_append (by simp)]
          rfl
      | cons next places =>
          have htext : placesText (position :: next :: places) =
              (placeText position).toList ++ ([',', ' '] ++ placesText (next :: places)) := by
            simp [placesText]
          rw [htext, List.append_assoc, List.append_assoc, readPlaces_placeText_append (by simp),
            readPlaces_append (by decide), ih]

/-- A text in front of and behind its last bracket that opens. -/
def splitTag (cs : List Char) : List Char × List Char :=
  ((cs.reverse.dropWhile (· ≠ '(')).tail.reverse, (cs.reverse.takeWhile (· ≠ '(')).reverse)

theorem splitTag_append_cons {cs rest : List Char} (h : '(' ∉ rest) :
    splitTag (cs ++ '(' :: rest) = (cs, rest) := by
  have hrest : ∀ c ∈ rest.reverse, decide (c ≠ '(') = true := fun c hc =>
    decide_eq_true fun heq => h (heq ▸ List.mem_reverse.mp hc)
  have hreverse : (cs ++ '(' :: rest).reverse = rest.reverse ++ '(' :: cs.reverse := by simp
  rw [splitTag, hreverse, List.dropWhile_append_of_pos hrest, List.takeWhile_append_of_pos hrest]
  simp

/-- The action that has this text, if any has. -/
def reading (text : String) : Action :=
  let cs := text.toList
  if cs.getLast? = some ')' then
    construct (String.ofList (splitTag cs).1) (readPlaces (splitTag cs).2)
  else rename ((readPlaces cs).headD 0)

/-- An action can be read off its text. -/
theorem reading_text (a : Action) : reading a.text = a := by
  cases a with
  | rename position =>
      have hend : (rename position).text.toList.getLast? ≠ some ')' := fun hlast =>
        absurd (mem_placeText (List.mem_of_getLast? hlast)) (by decide)
      have hplaces : readPlaces (rename position).text.toList = [position] := by
        have h : readPlaces ((placeText position).toList ++ []) = [position] :=
          readPlaces_placeText_append nofun
        rwa [List.append_nil] at h
      simp only [reading, if_neg hend, hplaces, List.headD_cons]
  | construct tag places =>
      have no_bracket : '(' ∉ placesText places ++ [')'] := by
        intro hmem
        rcases List.mem_append.mp hmem with hmem | hmem
        · exact absurd (mem_placesText hmem) (by decide)
        · exact absurd hmem (by decide)
      have hsplit : splitTag (construct tag places).text.toList =
          (tag.toList, placesText places ++ [')']) := by
        rw [toList_text_construct, splitTag_append_cons no_bracket]
      have hend : (construct tag places).text.toList.getLast? = some ')' := by
        rw [toList_text_construct, ← List.cons_append, ← List.append_assoc, List.getLast?_concat]
      simp only [reading, if_pos hend, hsplit, String.ofList_toList, readPlaces_placesText]

theorem eq_of_text_eq (h : a.text = b.text) : a = b := by
  rw [← reading_text a, h, reading_text]

/-- Read an action.  A text that no action has is refused. -/
def ofText? (text : String) : Option Action :=
  if (reading text).text = text then some (reading text) else none

/-- **The text of an action is unambiguous.**  Actions that are written alike are the same,
whatever their tags and places are; and just the texts of actions are read, each as the action
that has it. -/
theorem text_unambiguous :
    (∀ a b : Action, a.text = b.text → a = b) ∧
      ∀ (text : String) (a : Action), ofText? text = some a ↔ a.text = text := by
  refine ⟨fun a b => eq_of_text_eq, fun text a => ?_⟩
  unfold ofText?
  constructor
  · intro h
    split at h
    · next htext => rw [← Option.some.inj h, htext]
    · simp at h
  · rintro rfl
    rw [reading_text, if_pos rfl]

/-- A tag that begins like an action with places. -/
theorem text_unambiguous_lookalike :
    (construct "add($0, " [1, 20]).text = "add($0, ($1, $20)" ∧
      ofText? "add($0, ($1, $20)" = some (construct "add($0, " [1, 20]) ∧
      ∀ b : Action, b.text = "add($0, ($1, $20)" → b = construct "add($0, " [1, 20] := by
  have htext : (construct "add($0, " [1, 20]).text = "add($0, ($1, $20)" := by decide +kernel
  exact ⟨htext, (text_unambiguous.2 _ _).mpr htext,
    fun b hb => text_unambiguous.1 _ _ (hb.trans htext.symm)⟩

end Action

end LRGrammar
