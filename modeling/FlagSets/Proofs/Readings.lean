import FlagSets.Proofs.Equality
import FlagSets.Proofs.Strategies

/-!
# What can be read off a text

A strategy is shown by the name of its kind, the way in which it was made, and its arguments. All
parts but the last of a text are told apart by what separates them: no name of a kind has a full
stop in it, and no number has a comma or a bracket. So a text can be read from its beginning, one
part after another, and where two texts are the same their parts are.

Not every part gives back what it shows. A size is shown by its value, whatever its spelling was; a
growable set is shown by its bits, and neither by what backs it nor by its room; and the bounds that
come with a mask are not shown at all.

## Main results

* `Text.cut` : two texts are the same up to their first separator, and behind it.
* `Numeral.wording_injective`, `Numeral.value_eq_of_digits_eq` : what numbers are read as.
* `Kind.IsValue.same_of_wording_eq` : a value is read as one that counts as equal.
* `Kind.IsValue.isLegible` : the values of the kinds that come with the library can be shown.
* `Strategy.readAlike_of_wording_eq` : what two strategies with the same text have in common.
-/

namespace FlagSets

/-! ## Separators -/

namespace Text

/-- Characters up to the first separator, and those behind it. -/
private theorem cut_chars {c : Char} {xs ys rs ss : List Char} (hx : c ∉ xs) (hy : c ∉ ys)
    (h : xs ++ c :: rs = ys ++ c :: ss) : xs = ys ∧ rs = ss := by
  induction xs generalizing ys with
  | nil =>
      cases ys with
      | nil => exact ⟨rfl, (List.cons.inj h).2⟩
      | cons y ys =>
          obtain ⟨rfl, -⟩ := List.cons.inj h
          exact absurd List.mem_cons_self hy
  | cons x xs ih =>
      cases ys with
      | nil =>
          obtain ⟨rfl, -⟩ := List.cons.inj h
          exact absurd List.mem_cons_self hx
      | cons y ys =>
          obtain ⟨rfl, hrest⟩ := List.cons.inj h
          obtain ⟨hfront, hback⟩ :=
            ih (fun hc => hx (List.mem_cons_of_mem _ hc)) (fun hc => hy (List.mem_cons_of_mem _ hc))
              hrest
          exact ⟨List.cons_eq_cons.mpr ⟨rfl, hfront⟩, hback⟩

/-- Two texts are the same up to their first separator, and behind it. -/
theorem cut (c : Char) {tail : List Char} {sep a b r s : String} (hsep : sep.toList = c :: tail)
    (ha : c ∉ a.toList) (hb : c ∉ b.toList) (h : a ++ (sep ++ r) = b ++ (sep ++ s)) :
    a = b ∧ r = s := by
  have hchars := congrArg String.toList h
  simp only [String.toList_append, hsep, List.cons_append] at hchars
  obtain ⟨hfront, hback⟩ := cut_chars ha hb hchars
  exact ⟨String.toList_inj.mp hfront, String.toList_inj.mp (List.append_cancel_left hback)⟩

/-- A row of words that have no separator in them can be read off the words joined by it. -/
private theorem words_of_intercalate {c : Char} {tail : List Char} {ws vs : List (List Char)}
    (hw : ∀ w ∈ ws, w ≠ [] ∧ c ∉ w) (hv : ∀ v ∈ vs, v ≠ [] ∧ c ∉ v)
    (h : (c :: tail).intercalate ws = (c :: tail).intercalate vs) : ws = vs := by
  induction ws generalizing vs with
  | nil =>
      cases vs with
      | nil => rfl
      | cons v vs =>
          obtain ⟨hsome, -⟩ := hv v List.mem_cons_self
          cases vs <;> simp [hsome] at h
  | cons w ws ih =>
      obtain ⟨hsome, hlacks⟩ := hw w List.mem_cons_self
      cases vs with
      | nil => cases ws <;> simp [hsome] at h
      | cons v vs =>
          obtain ⟨-, hlacks'⟩ := hv v List.mem_cons_self
          -- only a word that is not the last one is followed by a separator
          cases ws with
          | nil =>
              cases vs with
              | nil => simpa using h
              | cons v' vs =>
                  simp only [List.intercalate_singleton, List.intercalate_cons_cons] at h
                  exact absurd (by simp [h]) hlacks
          | cons w' ws =>
              cases vs with
              | nil =>
                  simp only [List.intercalate_singleton, List.intercalate_cons_cons] at h
                  exact absurd (by simp [← h]) hlacks'
              | cons v' vs =>
                  simp only [List.intercalate_cons_cons, List.append_assoc, List.cons_append] at h
                  obtain ⟨rfl, hrest⟩ := cut_chars hlacks hlacks' h
                  have hwords := ih (fun u hu => hw u (List.mem_cons_of_mem _ hu))
                    (fun u hu => hv u (List.mem_cons_of_mem _ hu))
                    (List.append_cancel_left hrest)
                  exact List.cons_eq_cons.mpr ⟨rfl, hwords⟩

/-- Words without a comma can be read off a list of them. -/
theorem words_of_listed {ws vs : List String} (hw : ∀ w ∈ ws, w ≠ "" ∧ ',' ∉ w.toList)
    (hv : ∀ v ∈ vs, v ≠ "" ∧ ',' ∉ v.toList) (h : ", ".intercalate ws = ", ".intercalate vs) :
    ws = vs := by
  have hcomma : (", " : String).toList = [',', ' '] := rfl
  have hchars := congrArg String.toList h
  rw [String.toList_intercalate, String.toList_intercalate, hcomma] at hchars
  have hlacks : ∀ {us : List String}, (∀ u ∈ us, u ≠ "" ∧ ',' ∉ u.toList) →
      ∀ cs ∈ us.map String.toList, cs ≠ [] ∧ ',' ∉ cs := by
    intro us hus cs hcs
    obtain ⟨u, hu, rfl⟩ := List.mem_map.mp hcs
    exact ⟨fun hnil => (hus u hu).1 (String.toList_inj.mp hnil), (hus u hu).2⟩
  exact (List.map_inj_right fun _ _ => String.toList_inj.mp).mp
    (words_of_intercalate (hlacks hw) (hlacks hv) hchars)

end Text

/-! ## Numbers -/

namespace Numeral

/-- Nothing but digits is used to write a natural number. -/
private theorem isDigit_of_mem_repr {m : Nat} {c : Char} (h : c ∈ m.repr.toList) :
    c.isDigit = true := by
  rw [Nat.toList_repr] at h
  exact Nat.isDigit_of_mem_toDigits (by decide) (by decide) h

/-- Nothing but digits and a sign is used to write an integer. -/
private theorem mem_toString {n : Int} {c : Char} (h : c ∈ (toString n).toList) :
    c = '-' ∨ c.isDigit = true := by
  rw [Int.toString_eq_repr, Int.repr_eq_if] at h
  split at h
  · exact .inr (isDigit_of_mem_repr h)
  · rcases List.mem_append.mp (String.toList_append ▸ h) with hsign | hdigits
    · exact .inl (by simpa using hsign)
    · exact .inr (isDigit_of_mem_repr hdigits)

/-- A character that is neither a digit nor a sign is not used. -/
private theorem notMem_toString {c : Char} (hc : c ≠ '-' ∧ c.isDigit = false) (n : Int) :
    c ∉ (toString n).toList := by
  intro h
  rcases mem_toString h with hsign | hdigit
  · exact hc.1 hsign
  · exact Bool.false_ne_true (hc.2.symm.trans hdigit)

/-- A natural number can be read off its digits. -/
private theorem nat_of_repr {m n : Nat} (h : m.repr = n.repr) : m = n := by
  have hread : ∀ k : Nat, Nat.ofDigitChars 10 k.repr.toList 0 = k := by
    intro k
    rw [Nat.toList_repr]
    exact Nat.ofDigitChars_toDigits (by decide) (by decide)
  rw [← hread m, h, hread n]

/-- An integer can be read off the text it is written as. -/
private theorem int_of_toString {m n : Int} (h : toString m = toString n) : m = n := by
  have hsigned : ∀ a b : Nat, a.repr ≠ "-" ++ b.repr := by
    intro a b hab
    have hsign : '-' ∈ a.repr.toList := by
      rw [hab]
      simp
    exact absurd (isDigit_of_mem_repr hsign) (by decide)
  rw [Int.toString_eq_repr, Int.toString_eq_repr, Int.repr_eq_if, Int.repr_eq_if] at h
  split at h
  · split at h
    · have := nat_of_repr h
      omega
    · exact absurd h (hsigned _ _)
  · split at h
    · exact absurd h.symm (hsigned _ _)
    · have := nat_of_repr ((String.append_right_inj _).mp h)
      omega

/-- A number is read as its value off its digits. -/
theorem value_eq_of_digits_eq {a b : Numeral} (h : a.digits = b.digits) : a.value = b.value :=
  int_of_toString h

/-- A number is read as it was spelled off the text it is quoted as. -/
theorem wording_injective {a b : Numeral} (h : a.wording = b.wording) : a = b := by
  -- the name of a level has a full stop in it, and a plain number has none
  have hplain : ∀ (n : Int) (v : Verbosity), toString n ≠ v.shown := by
    intro n v hnv
    have hstop : '.' ∈ v.shown.toList := by cases v <;> decide
    exact notMem_toString (by decide) n (hnv ▸ hstop)
  cases a with
  | plain m =>
      cases b with
      | plain n => exact congrArg plain (int_of_toString h)
      | level v => exact absurd h (hplain m v)
  | level u =>
      cases b with
      | plain n => exact absurd h.symm (hplain n u)
      | level v => cases u <;> cases v <;> first | rfl | exact absurd h (by decide)

theorem notMem_digits {c : Char} (hc : c ≠ '-' ∧ c.isDigit = false) (n : Numeral) :
    c ∉ n.digits.toList :=
  notMem_toString hc n.value

theorem comma_notMem_wording (n : Numeral) : ',' ∉ n.wording.toList := by
  cases n with
  | plain n => exact notMem_toString (by decide) n
  | level v => cases v <;> decide

end Numeral

/-! ## Values -/

/-- Values that count as equal: one and the same, or growable sets with the same bits. -/
inductive Datum.Same : Datum → Datum → Prop
  | refl (v : Datum) : Same v v
  | varSet {s t : VarSet} (h : s.equal t = true) : Same (.varSet s) (.varSet t)

/-- A list of flags is shown as a list of the words for them. -/
private theorem Datum.wording_bools (bs : List Bool) :
    (Datum.bools bs).wording = "[" ++ (", ".intercalate (bs.map Datum.boolWord) ++ "]") := by
  have hall : ∀ row : List Bool, wordings (row.map Datum.bool) = row.map boolWord := by
    intro row
    induction row with
    | nil => rfl
    | cons b row ih => exact congrArg (boolWord b :: ·) ih
  rw [← hall, ← String.append_assoc]
  rfl

/-- Flags can be read off the words for them. -/
private theorem Datum.flags_of_wording {bs cs : List Bool}
    (h : (Datum.bools bs).wording = (Datum.bools cs).wording) : bs = cs := by
  have hlacks : ∀ {row : List Bool}, ∀ u ∈ row.map Datum.boolWord, u ≠ "" ∧ ',' ∉ u.toList := by
    intro row u hu
    obtain ⟨b, -, rfl⟩ := List.mem_map.mp hu
    cases b <;> decide
  rw [Datum.wording_bools, Datum.wording_bools, String.append_right_inj,
    String.append_left_inj] at h
  refine (List.map_inj_right ?_).mp (Text.words_of_listed hlacks hlacks h)
  intro a b hab
  cases a <;> cases b <;> first | rfl | exact absurd hab (by decide)

/-- Flags can be read off the digits for them. -/
private theorem Datum.flags_of_digits {bs cs : List Bool}
    (h : (Datum.bitArray bs).wording = (Datum.bitArray cs).wording) : bs = cs := by
  have hshown : ∀ {row : List Bool}, row ≠ [] →
      (Datum.bitArray row).wording = "bitarray('" ++ Datum.bitDigits row ++ "')" :=
    fun hsome => if_neg hsome
  -- the text of an empty row is shorter than that of any other
  have hempty : ∀ {row : List Bool}, row ≠ [] →
      (Datum.bitArray row).wording ≠ (Datum.bitArray []).wording := by
    intro row hsome hsame
    have hnone : (Datum.bitArray []).wording = "bitarray()" := rfl
    have hlength := congrArg String.length hsame
    rw [hshown hsome, hnone] at hlength
    simp only [String.length_append] at hlength
    have hopen : ("bitarray('" : String).length = 10 := rfl
    have hclose : ("')" : String).length = 2 := rfl
    have hshort : ("bitarray()" : String).length = 10 := rfl
    omega
  by_cases hb : bs = []
  · by_cases hc : cs = []
    · rw [hb, hc]
    · exact absurd (hb ▸ h).symm (hempty hc)
  · by_cases hc : cs = []
    · exact absurd (hc ▸ h) (hempty hb)
    · rw [hshown hb, hshown hc, String.append_left_inj, String.append_right_inj] at h
      refine (List.map_inj_right ?_).mp (String.ofList_inj.mp h)
      intro a b hab
      cases a <;> cases b <;> first | rfl | exact absurd hab (by decide)

/-- The bits of a growable set can be read off the list of them. -/
private theorem VarSet.indices_of_shown {s t : VarSet} (h : s.shown = t.shown) :
    s.indices = t.indices := by
  have hlacks : ∀ {row : List Nat}, ∀ u ∈ row.map toString, u ≠ "" ∧ ',' ∉ u.toList := by
    intro row u hu
    obtain ⟨i, -, rfl⟩ := List.mem_map.mp hu
    exact ⟨Nat.repr_ne_empty, fun hc => absurd (Numeral.isDigit_of_mem_repr hc) (by decide)⟩
  rw [shown, shown, String.append_left_inj, String.append_right_inj] at h
  exact (List.map_inj_right fun _ _ => Numeral.nat_of_repr).mp
    (Text.words_of_listed hlacks hlacks h)

/-- Values of a kind that are worded alike count as equal. -/
theorem Kind.IsValue.same_of_wording_eq {k : Kind} {v w : Datum} (hv : k.IsValue v)
    (hw : k.IsValue w) (h : v.wording = w.wording) : v.Same w := by
  cases hv with
  | word _ =>
      cases hw with
      | word _ =>
          obtain rfl := Numeral.wording_injective h
          exact .refl _
  | bools bs =>
      cases hw with
      | bools cs =>
          obtain rfl := Datum.flags_of_wording h
          exact .refl _
  | bitArray bs =>
      cases hw with
      | bitArray cs =>
          obtain rfl := Datum.flags_of_digits h
          exact .refl _
  | varSet _ s =>
      cases hw with
      | varSet _ t => exact .varSet (VarSet.equal_iff_indices.mpr (VarSet.indices_of_shown h))

/-! ## Kinds -/

namespace Kind

/-- The kinds that come with the library. -/
def shipped : List Kind :=
  WordKind.all.map word ++
    [growable .boolVec, growable .bitArray, varsize .boolVec, varsize .bitArray]

theorem isStandard_of_mem_shipped : ∀ k ∈ shipped, k.IsStandard := by decide

/-- The values of the kinds that come with the library are legible. -/
theorem IsValue.isLegible {k : Kind} {v : Datum} (hk : k ∈ shipped) (hv : k.IsValue v) :
    v.isLegible = true := by
  cases hv with
  | @word w n hn =>
      have hw : w ∈ WordKind.all := by simpa [shipped] using hk
      have hrange : ∀ w ∈ WordKind.all, -(2 ^ 64) < w.minValue ∧ w.maxValue < 2 ^ 64 := by decide
      obtain ⟨hmin, hmax⟩ := hrange w hw
      obtain ⟨hlow, hhigh⟩ := hn
      rw [Datum.isLegible]
      cases n with
      | plain n =>
          rw [Numeral.value_plain] at hlow hhigh
          exact Text.isShort_of_lt_word (by omega)
      | level v => rfl
  | bools bs =>
      rw [Datum.bools, Datum.isLegible]
      induction bs with
      | nil => rfl
      | cons b bs ih =>
          rw [List.map_cons, Datum.areLegible, Datum.isLegible, Bool.true_and]
          exact ih
  | bitArray bs => rfl
  | varSet b s => rfl

/-- No two kinds that come with the library have the same name. -/
private theorem eq_of_shown : ∀ k ∈ shipped, ∀ l ∈ shipped, k.shown = l.shown → k = l := by decide

private theorem stop_notMem_shown : ∀ k ∈ shipped, '.' ∉ k.shown.toList := by decide

end Kind

/-! ## Strategies -/

namespace Strategy

/-- What two strategies over a kind have in common that are shown alike. The bounds that come with a
mask can be any, and sizes can be spelled in any way. -/
inductive ReadAlike (k : Kind) : Strategy → Strategy → Prop
  | between (low high : Numeral) : ReadAlike k (range k low high none) (range k low high none)
  | masked (low₁ high₁ low₂ high₂ : Numeral) {mask₁ mask₂ : Datum} (h : mask₁.Same mask₂) :
      ReadAlike k (range k low₁ high₁ (some mask₁)) (range k low₂ high₂ (some mask₂))
  | sampled {size₁ size₂ bits₁ bits₂ : Span Numeral}
      (hleast : size₁.start.value = size₂.start.value)
      (hmost : size₁.endExcl.value = size₂.endExcl.value)
      (hlow : bits₁.start.value = bits₂.start.value)
      (hhigh : bits₁.endExcl.value = bits₂.endExcl.value) :
      ReadAlike k (sampled k size₁ bits₁) (sampled k size₂ bits₂)

/-- The way in which a strategy is made, as its text says it. -/
private def way : Strategy → String
  | range _ _ _ (some _) => "masked"
  | range _ _ _ none => "between"
  | sampled _ _ _ => "sampled"
  | bare => ""

/-- The arguments that a strategy is made of, as its text says them. -/
private def arguments : Strategy → String
  | range _ _ _ (some mask) => mask.wording ++ ")"
  | range _ low high none => low.wording ++ (", " ++ (high.wording ++ ")"))
  | sampled _ size bits =>
    "range(" ++ (size.start.digits ++ (", " ++ (size.endExcl.digits ++ ("), range(" ++
      (bits.start.digits ++ (", " ++ (bits.endExcl.digits ++ "))")))))))
  | bare => ""

variable {k k₁ k₂ : Kind} {s s₁ s₂ : Strategy}

/-- The parts of a text. -/
private theorem wording_eq (hs : s.WellFormed k) :
    s.wording = k.shown ++ ("." ++ (s.way ++ ("(" ++ s.arguments))) := by
  have hmasked : ".masked(" = "." ++ ("masked" ++ "(") := rfl
  have hbetween : ".between(" = "." ++ ("between" ++ "(") := rfl
  have hsampled : ".sampled(range(" = "." ++ ("sampled" ++ ("(" ++ "range(")) := rfl
  cases hs with
  | @range low high mask =>
      cases mask with
      | none => simp only [wording, way, arguments, hbetween, String.append_assoc]
      | some mask => simp only [wording, way, arguments, hmasked, String.append_assoc]
  | sampled => simp only [wording, way, arguments, hsampled, String.append_assoc]

private theorem bracket_notMem_way (s : Strategy) : '(' ∉ s.way.toList := by
  cases s with
  | range _ _ _ mask => cases mask <;> simp [way]
  | sampled _ _ _ => simp [way]
  | bare => simp [way]

/-- The arguments of strategies over one kind that are made in the same way can be read. -/
private theorem readAlike_of_arguments (hs₁ : s₁.WellFormed k) (hs₂ : s₂.WellFormed k)
    (hway : s₁.way = s₂.way) (h : s₁.arguments = s₂.arguments) : ReadAlike k s₁ s₂ := by
  cases hs₁ with
  | @range low₁ high₁ mask₁ _ _ _ hmask₁ =>
      cases hs₂ with
      | @range low₂ high₂ mask₂ _ _ _ hmask₂ =>
          cases mask₁ with
          | none =>
              cases mask₂ with
              | none =>
                  obtain ⟨hlow, hhigh⟩ := Text.cut ',' rfl
                    (Numeral.comma_notMem_wording low₁) (Numeral.comma_notMem_wording low₂) h
                  obtain rfl := Numeral.wording_injective hlow
                  obtain rfl := Numeral.wording_injective ((String.append_left_inj _).mp hhigh)
                  exact .between _ _
              | some _ => simp [way] at hway
          | some mask₁ =>
              cases mask₂ with
              | none => simp [way] at hway
              | some mask₂ =>
                  have hsame := (hmask₁ mask₁ rfl).same_of_wording_eq (hmask₂ mask₂ rfl)
                    ((String.append_left_inj _).mp h)
                  exact .masked low₁ high₁ low₂ high₂ hsame
      | sampled => cases mask₁ <;> simp [way] at hway
  | @sampled size₁ bits₁ =>
      cases hs₂ with
      | @range _ _ mask₂ => cases mask₂ <;> simp [way] at hway
      | @sampled size₂ bits₂ =>
          have hcomma : ∀ n : Numeral, ',' ∉ n.digits.toList := Numeral.notMem_digits (by decide)
          have hbracket : ∀ n : Numeral, ')' ∉ n.digits.toList := Numeral.notMem_digits (by decide)
          obtain ⟨hleast, hsize⟩ := Text.cut ',' rfl (hcomma _) (hcomma _)
            ((String.append_right_inj _).mp h)
          obtain ⟨hmost, hbits⟩ := Text.cut ')' rfl (hbracket _) (hbracket _) hsize
          obtain ⟨hlow, hlast⟩ := Text.cut ',' rfl (hcomma _) (hcomma _) hbits
          exact .sampled (Numeral.value_eq_of_digits_eq hleast)
            (Numeral.value_eq_of_digits_eq hmost) (Numeral.value_eq_of_digits_eq hlow)
            (Numeral.value_eq_of_digits_eq ((String.append_left_inj _).mp hlast))

/-- Two strategies over kinds that come with the library are over the same kind and were made alike,
as far as their texts are the same. -/
theorem readAlike_of_wording_eq (hk₁ : k₁ ∈ Kind.shipped) (hk₂ : k₂ ∈ Kind.shipped)
    (hs₁ : s₁.WellFormed k₁) (hs₂ : s₂.WellFormed k₂) (h : s₁.wording = s₂.wording) :
    k₁ = k₂ ∧ ReadAlike k₁ s₁ s₂ := by
  rw [wording_eq hs₁, wording_eq hs₂] at h
  obtain ⟨hkind, hmade⟩ := Text.cut '.' rfl (Kind.stop_notMem_shown k₁ hk₁)
    (Kind.stop_notMem_shown k₂ hk₂) h
  obtain rfl := Kind.eq_of_shown k₁ hk₁ k₂ hk₂ hkind
  obtain ⟨hway, harguments⟩ := Text.cut '(' rfl (bracket_notMem_way s₁)
    (bracket_notMem_way s₂) hmade
  exact ⟨rfl, readAlike_of_arguments hs₁ hs₂ hway harguments⟩

end Strategy

end FlagSets
