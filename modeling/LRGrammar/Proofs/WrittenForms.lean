import LRGrammar.Json.Codec

/-!
# LRGrammar.Proofs.WrittenForms

Reading undoes writing.  Positions and levels have no bound, but only words are read, so
what can be written down are the values made of words (`Action.Fits`), and these are all
that is ever read, whatever form it is read from.  So a value that was read can be
written, is read again as it was, and from then on stays in the one form in which it is
written.  An action may read positions that no body has; an origin is any value at all.

* `Json.word?_eq_some_iff`, `Json.exists_of_mem_list?` — the words, and the items of what
  is read as a list;
* `RoundTrip.of_fits` — what there is to prove of a written form;
* `written_forms_round_trip` — the written forms of tags, levels, actions and rules.
-/

namespace LRGrammar

/-! ## words and lists -/

namespace Json

variable {α : Type} {j : Json} {n : Nat}

/-- What is read as a word is the written form of one. -/
theorem word?_eq_some_iff : j.word? = some n ↔ n < wordLimit ∧ j = .ofNat n := by
  constructor
  · intro h
    unfold word? at h
    split at h
    · next i =>
        split at h
        · next hword =>
            obtain rfl := Option.some.inj h
            have hcast : (i.toNat : Int) = i := Int.toNat_of_nonneg hword.1
            exact ⟨by omega, by rw [ofNat, hcast]⟩
        · contradiction
    · contradiction
  · rintro ⟨hlt, rfl⟩
    exact word?_ofNat hlt

/-- Every item of what is read as a list was read as an item. -/
theorem exists_of_mem_list? {item? : Json → Option α} {xs : List α}
    (h : j.list? item? = some xs) : ∀ x ∈ xs, ∃ item, item? item = some x := by
  unfold list? at h
  split at h
  · next items =>
      induction items generalizing xs with
      | nil =>
          obtain rfl := Option.some.inj h
          exact fun x hx => absurd hx List.not_mem_nil
      | cons item rest ih =>
          simp only [List.mapM_cons, Option.bind_eq_bind, Option.bind_eq_some_iff] at h
          obtain ⟨y, hy, ys, hys, heq⟩ := h
          obtain rfl := Option.some.inj heq
          intro x hx
          rcases List.mem_cons.mp hx with rfl | hx
          · exact ⟨item, hy⟩
          · exact ih hys x hx
  · contradiction

end Json

/-! ## round trips -/

/-- The written form of some values, with a reader: reading undoes writing, and it makes no
difference to write down what was read, and to read that. -/
structure RoundTrip {α : Type} (Fits : α → Prop) (write : α → Json) (read : Json → Option α) :
    Prop where
  /-- A value that fits is read as it was written. -/
  read_write : ∀ a, Fits a → read (write a) = some a
  /-- A value that was read, in whatever form, is read again as it is written. -/
  read_again : ∀ j a, read j = some a → read (write a) = some a
  /-- Reading and writing a second time changes nothing. -/
  write_again : ∀ j k, (read j).map write = some k → (read k).map write = some k

/-- It is enough that reading undoes writing, and that only values are read that fit. -/
theorem RoundTrip.of_fits {α : Type} {Fits : α → Prop} {write : α → Json}
    {read : Json → Option α} (read_write : ∀ a, Fits a → read (write a) = some a)
    (fits_of_read : ∀ j a, read j = some a → Fits a) : RoundTrip Fits write read where
  read_write := read_write
  read_again j a hj := read_write a (fits_of_read j a hj)
  write_again j k hk := by
    obtain ⟨a, hj, rfl⟩ := Option.map_eq_some_iff.mp hk
    rw [read_write a (fits_of_read j a hj), Option.map_some]

/-- A tag is read back as it was written. -/
theorem Associativity.ofJson?_toJson (tag : Associativity) : ofJson? tag.toJson = some tag :=
  ofName?_name tag

/-! ## actions and rules -/

namespace Action

/-- The positions are words. -/
def Fits (a : Action) : Prop := ∀ position ∈ a.positions, position < Json.wordLimit

theorem ofJson?_toJson {a : Action} (h : a.Fits) : ofJson? a.toJson = some a := by
  cases a with
  | rename position =>
      have hword : (Json.ofNat position).word? = some position :=
        Json.word?_ofNat (h position (List.mem_singleton_self position))
      simp only [toJson, ofJson?, hword, Option.map_some]
  | construct tag places =>
      have hplaces : (Json.arr (places.map .ofNat)).list? Json.word? = some places :=
        Json.list?_arr_map fun position hposition => Json.word?_ofNat (h position hposition)
      simp [toJson, ofJson?, List.lookup_cons, Json.string?, hplaces]

/-- Only positions that a word holds are read. -/
theorem fits_of_ofJson? {j : Json} {a : Action} (h : ofJson? j = some a) : a.Fits := by
  unfold ofJson? at h
  split at h
  · next written =>
      obtain ⟨position, hword, rfl⟩ := Option.map_eq_some_iff.mp h
      intro x hx
      rw [List.mem_singleton.mp hx]
      exact (Json.word?_eq_some_iff.mp hword).1
  · next fields =>
      simp only [Option.bind_eq_bind, Option.bind_eq_some_iff] at h
      obtain ⟨_, -, tag, -, _, -, places, hplaces, heq⟩ := h
      obtain rfl := Option.some.inj heq
      intro x hx
      obtain ⟨item, hword⟩ := Json.exists_of_mem_list? hplaces x hx
      exact (Json.word?_eq_some_iff.mp hword).1
  · contradiction

end Action

namespace Rule

theorem ofJson?_toJson {r : Rule Json} (h : r.action.Fits) : ofJson? r.toJson = some r := by
  obtain ⟨⟨lhs, rhs⟩, anchor, action, origin⟩ := r
  have hrhs : (Json.arr (rhs.map .str)).list? Json.string? = some rhs :=
    Json.list?_arr_map fun _ _ => rfl
  cases anchor <;>
    simp [toJson, ofJson?, List.lookup_cons, ofParts?, anchor?, Json.string?, hrhs,
      Action.ofJson?_toJson h]

theorem fits_of_ofParts? {lhs rhs action origin : Json} {anchor : Option Json} {r : Rule Json}
    (h : ofParts? lhs rhs anchor action origin = some r) : r.action.Fits := by
  simp only [ofParts?, Option.bind_eq_bind, Option.bind_eq_some_iff] at h
  obtain ⟨_, -, _, -, _, -, a, haction, heq⟩ := h
  obtain rfl := Option.some.inj heq
  exact Action.fits_of_ofJson? haction

/-- Only positions that a word holds are read. -/
theorem fits_of_ofJson? {j : Json} {r : Rule Json} (h : ofJson? j = some r) : r.action.Fits := by
  unfold ofJson? at h
  split at h
  · simp only [Option.bind_eq_bind, Option.bind_eq_some_iff] at h
    obtain ⟨_, -, _, -, _, -, _, -, hparts⟩ := h
    exact fits_of_ofParts? hparts
  · exact fits_of_ofParts? h
  · contradiction

end Rule

/-- **Reading undoes writing** for tags, levels, actions and rules: each value of words is
read as it was written, and a value that was read, in whatever form, is written in a form
that is read as the same value and written as itself. -/
theorem written_forms_round_trip :
    RoundTrip (fun _ => True) Associativity.toJson Associativity.ofJson? ∧
      RoundTrip (· < Json.wordLimit) Level.toJson Level.ofJson? ∧
      RoundTrip Action.Fits Action.toJson Action.ofJson? ∧
      RoundTrip (·.action.Fits) Rule.toJson Rule.ofJson? := by
  refine ⟨?_, ?_, ?_, ?_⟩
  · exact .of_fits (fun tag _ => tag.ofJson?_toJson) fun _ _ _ => trivial
  · exact .of_fits (fun _ hlt => Json.word?_ofNat hlt) fun _ _ h => (Json.word?_eq_some_iff.mp h).1
  · exact .of_fits (fun _ h => Action.ofJson?_toJson h) fun _ _ h => Action.fits_of_ofJson? h
  · exact .of_fits (fun _ h => Rule.ofJson?_toJson h) fun _ _ h => Rule.fits_of_ofJson? h

/-- A rule as the list of its parts, with a key that says nothing, the greatest word as a
position of no symbol, and an object for its origin. -/
def listedRule : Json :=
  .arr [.str "E", .arr [], .null,
    .obj [("Construct", .obj [("note", .str "$1"), ("places", .arr [.int 18446744073709551615]),
      ("tag", .str "f($0, ")])],
    .obj [("line", .int (-3))]]

/-- The rule is read, and read again from the form of five keys in which it is written; and
so is the tag that is given as an object. -/
theorem written_forms_round_trip_listedRule :
    let r : Rule Json := ⟨⟨"E", []⟩, none, .construct "f($0, " [18446744073709551615],
      .obj [("line", .int (-3))]⟩
    r.action.Fits ∧ Rule.ofJson? r.toJson = some r ∧ Rule.ofJson? listedRule = some r ∧
      r.toJson ≠ listedRule ∧ (Rule.ofJson? r.toJson).map Rule.toJson = some r.toJson ∧
      Associativity.ofJson? (.obj [("Left", .null)]) = some .left ∧
      Associativity.ofJson? Associativity.left.toJson = some .left := by
  intro r
  have hread : Rule.ofJson? listedRule = some r := by decide +kernel
  have htag : Associativity.ofJson? (.obj [("Left", .null)]) = some .left := by decide +kernel
  have hfits : r.action.Fits := by
    intro position hposition
    rw [List.mem_singleton.mp hposition]
    decide
  obtain ⟨tags, -, -, rules⟩ := written_forms_round_trip
  exact ⟨hfits, rules.read_write r hfits, hread, by decide +kernel,
    rules.write_again listedRule r.toJson (by rw [hread, Option.map_some]), htag,
    tags.read_again _ _ htag⟩

end LRGrammar
