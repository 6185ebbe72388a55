import Kryon.Lib.Grouping
import Mathlib.Algebra.Order.Group.Unbundled.Abs
import Mathlib.Algebra.Order.Ring.Int
import Mathlib.Data.List.DropRight
/-!
# Amounts — the money parser of the forms

`parseAmount` drops the commas that are followed by exactly three digits and reads what is left as digits with at most one
point.  So it takes exactly the texts of two segments, a whole part and a fraction (`parseAmount_iff`): also those with a
comma in the fraction, before the first digit, or after more than three.
-/
namespace Kryon.Format

open Grouping (Segment)

/-! ## Formatting -/

inductive Rounding where
  | nearest
  | down
  | up
deriving DecidableEq

inductive Sign where
  | auto
  | always
deriving DecidableEq

structure FixedOptions where
  /-- Half away from zero, toward zero, or away from zero. -/
  rounding : Rounding := .nearest
  grouping : Bool := true
  /-- Whether a positive value carries a sign. -/
  sign : Sign := .auto

def pow10 (n : Nat) : Int := 10 ^ n

/-- A value of `decimals` at `dp` decimals, rounded as asked. -/
def rescale (value : Int) (decimals dp : Nat) (rounding : Rounding) : Int :=
  if dp ≥ decimals then value * pow10 (dp - decimals)
  else
    let q := pow10 (decimals - dp)
    let abs := |value|
    let rem := abs.tmod q
    let r := abs.tdiv q +
      if rem > 0 ∧ (rounding = .up ∨ (rounding = .nearest ∧ rem * 2 ≥ q)) then 1 else 0
    if value < 0 then -r else r

def digitsOf (n : Int) : List Char := Nat.toDigits 10 n.toNat

def padStart (s : List Char) (n : Nat) (c : Char) : List Char := List.replicate (n - s.length) c ++ s

def padEnd (s : List Char) (n : Nat) (c : Char) : List Char := s ++ List.replicate (n - s.length) c

/-- A comma at every place between two digits that has a multiple of three digits behind. -/
def group (digits : List Char) : List Char := Grouping.group ',' 3 digits

def formatFixed (value : Int) (decimals dp : Nat) (opts : FixedOptions) : List Char :=
  let r := rescale value decimals dp opts.rounding
  let abs := |r|
  let unit := pow10 dp
  let whole := digitsOf (abs.tdiv unit)
  let frac := if dp > 0 then '.' :: padStart (digitsOf (abs.tmod unit)) dp '0' else []
  let sign := if r < 0 then ['-'] else if opts.sign = .always ∧ abs > 0 then ['+'] else []
  sign ++ (if opts.grouping then group whole else whole) ++ frac

/-! ## Parsing -/

/-- What `trim` takes off: the white space and the line terminators. -/
def isSpace (c : Char) : Bool :=
  [0x9, 0xA, 0xB, 0xC, 0xD, 0x20, 0xA0, 0x1680, 0x2028, 0x2029, 0x202F, 0x205F, 0x3000, 0xFEFF].contains c.toNat ||
    decide (0x2000 ≤ c.toNat ∧ c.toNat ≤ 0x200A)

def trim (s : List Char) : List Char := (s.dropWhile isSpace).rdropWhile isSpace

/-- Three digits, and then the end or no digit. -/
def beforeGroup : List Char → Bool
  | a :: b :: c :: rest => a.isDigit && b.isDigit && c.isDigit && (rest.head?.all fun d => !d.isDigit)
  | _ => false

def dropSeparators : List Char → List Char
  | [] => []
  | c :: cs => if c = ',' ∧ beforeGroup cs = true then dropSeparators cs else c :: dropSeparators cs

def isDecimal (text : List Char) : Bool :=
  match text.dropWhile Char.isDigit with
  | [] => true
  | c :: rest => c = '.' && rest.all Char.isDigit

/-- The first two parts between points; a missing one is empty. -/
def splitPoint (text : List Char) : List Char × List Char :=
  (text.takeWhile (· ≠ '.'), ((text.dropWhile (· ≠ '.')).drop 1).takeWhile (· ≠ '.'))

/-- The bigint of digits, of which none is zero. -/
def bigInt (digits : List Char) : Nat := Nat.ofDigitChars 10 (if digits = [] then ['0'] else digits) 0

/-- What a user typed as an integer at `decimals`. -/
def parseAmount (input : List Char) (decimals : Nat) : Option Nat :=
  let text := dropSeparators (trim input)
  if isDecimal text = false ∨ text = [] ∨ text = ['.'] then none
  else
    let (whole, frac) := splitPoint text
    if frac.length > decimals then none
    else some (bigInt whole * 10 ^ decimals + bigInt (padEnd frac decimals '0'))

/-! ## The grammar -/

/-- A whole part, and a fraction where there is a point. -/
structure Amount where
  whole : Segment Char
  frac : Option (Segment Char)

namespace Amount

def fraction (a : Amount) : List Char := (a.frac.map Segment.digits).getD []

def text (a : Amount) : List Char :=
  a.whole.text ',' ++ (a.frac.map fun f => '.' :: f.text ',').getD []

/-- Digits in groups of three, at least one, and no more in the fraction than the decimals. -/
structure Fits (decimals : Nat) (a : Amount) : Prop where
  whole : a.whole.Valid Char.isDigit 3
  frac : ∀ f ∈ a.frac, f.Valid Char.isDigit 3
  digits : a.whole.digits ++ a.fraction ≠ []
  length : a.fraction.length ≤ decimals

/-- The whole part is digits, or one to three of them and groups; the fraction has no groups. -/
structure Grammatical (a : Amount) : Prop where
  whole : a.whole.Proper 3
  frac : ∀ f ∈ a.frac, f.groups = []

def value (decimals : Nat) (a : Amount) : Nat :=
  Nat.ofDigitChars 10 a.whole.digits 0 * 10 ^ decimals +
    Nat.ofDigitChars 10 a.fraction 0 * 10 ^ (decimals - a.fraction.length)

end Amount

/-- The amount grammar, and the value of each text of it. -/
def Denotes (decimals : Nat) (text : List Char) (v : Nat) : Prop :=
  ∃ a : Amount, a.text = text ∧ a.Fits decimals ∧ a.Grammatical ∧ a.value decimals = v

/-- Every comma is followed by exactly three digits, and otherwise there are digits with at most one point, at least one
and no more in the fraction than the decimals; but a comma is in the fraction, before the first digit, or the first one
after more than three. -/
def Misgrouped (decimals : Nat) (text : List Char) : Prop :=
  ∃ a : Amount, a.text = text ∧ a.Fits decimals ∧ ¬ a.Grammatical

/-! ## What the parser reads -/

theorem comma_not_digit : Char.isDigit ',' = false := by decide

theorem point_not_digit : Char.isDigit '.' = false := by decide

theorem beforeGroup_iff (cs : List Char) : beforeGroup cs = true ↔ (cs.takeWhile Char.isDigit).length = 3 := by
  have hshort : ∀ cs : List Char, cs.length < 3 → (cs.takeWhile Char.isDigit).length ≠ 3 := fun cs hcs => by
    have := (List.takeWhile_prefix (l := cs) Char.isDigit).length_le
    omega
  match cs with
  | [] => exact iff_of_false (by decide) (hshort [] (by decide))
  | [a] => exact iff_of_false (by simp [beforeGroup]) (hshort [a] (by simp))
  | [a, b] => exact iff_of_false (by simp [beforeGroup]) (hshort [a, b] (by simp))
  | a :: b :: c :: rest =>
    cases ha : a.isDigit <;> cases hb : b.isDigit <;> cases hc : c.isDigit <;>
      simp only [beforeGroup, List.takeWhile_cons, ha, hb, hc, Bool.false_and, Bool.and_false, Bool.true_and, if_true,
        Bool.false_eq_true, if_false, List.length_nil, List.length_cons, reduceCtorEq, Nat.reduceEqDiff, Nat.reduceAdd]
    -- three digits: the group ends where the next one is none
    cases rest with
    | nil => simp
    | cons d rest => cases hd : d.isDigit <;> simp [hd]

theorem dropSeparators_eq (t : List Char) : dropSeparators t = Grouping.strip Char.isDigit ',' 3 t := by
  induction t with
  | nil => rfl
  | cons c t ih => simp only [dropSeparators, Grouping.strip, beforeGroup_iff, ih]

theorem digits_isDigit {s : Segment Char} (hv : s.Valid Char.isDigit 3) : ∀ c ∈ s.digits, c.isDigit = true := by
  intro c hc
  rcases List.mem_append.1 hc with hc | hc
  · exact hv.first c hc
  · obtain ⟨g, hg, hc⟩ := List.mem_flatten.1 hc
    exact (hv.groups g hg).2 c hc

/-- Both parts are digits in groups of three. -/
structure Amount.Valid (a : Amount) : Prop where
  whole : a.whole.Valid Char.isDigit 3
  frac : ∀ f ∈ a.frac, f.Valid Char.isDigit 3

def Amount.plain (a : Amount) : List Char := a.whole.digits ++ (a.frac.map fun f => '.' :: f.digits).getD []

variable {a a' : Amount} {t input : List Char} {decimals v : Nat}

theorem Amount.Valid.dropSeparators_text (h : a.Valid) : dropSeparators a.text = a.plain := by
  rw [dropSeparators_eq]
  cases hf : a.frac with
  | none =>
    simp only [Amount.text, Amount.plain, hf, Option.map_none, Option.getD_none, List.append_nil]
    exact h.whole.strip_text comma_not_digit
  | some f =>
    simp only [Amount.text, Amount.plain, hf, Option.map_some, Option.getD_some]
    rw [Grouping.strip_append_cons point_not_digit (by decide), h.whole.strip_text comma_not_digit,
      (h.frac f hf).strip_text comma_not_digit]

theorem Amount.Valid.isDecimal_plain (h : a.Valid) : isDecimal a.plain = true := by
  have hwhole := digits_isDigit h.whole
  cases hf : a.frac with
  | none =>
    have hdrop : (a.whole.digits ++ []).dropWhile Char.isDigit = [] := by
      rw [List.append_nil]
      exact List.dropWhile_eq_nil_iff.2 hwhole
    simp only [isDecimal, Amount.plain, hf, Option.map_none, Option.getD_none, hdrop]
  | some f =>
    have hdrop : (a.whole.digits ++ '.' :: f.digits).dropWhile Char.isDigit = '.' :: f.digits := by
      rw [List.dropWhile_append_of_pos hwhole, List.dropWhile_cons_of_neg (by decide)]
    have hall : f.digits.all Char.isDigit = true := List.all_eq_true.2 (digits_isDigit (h.frac f hf))
    simp [isDecimal, Amount.plain, hf, hdrop, hall]

theorem ne_point {ds : List Char} (h : ∀ c ∈ ds, c.isDigit = true) : ∀ c ∈ ds, decide (c ≠ '.') = true := by
  intro c hc
  refine decide_eq_true fun heq => ?_
  have := h c hc
  rw [heq] at this
  exact absurd this (by decide)

theorem Amount.Valid.splitPoint_plain (h : a.Valid) : splitPoint a.plain = (a.whole.digits, a.fraction) := by
  have hwhole := ne_point (digits_isDigit h.whole)
  cases hf : a.frac with
  | none =>
    simp only [splitPoint, Amount.plain, Amount.fraction, hf, Option.map_none, Option.getD_none, List.append_nil]
    rw [List.takeWhile_eq_self_iff.2 hwhole, List.dropWhile_eq_nil_iff.2 hwhole]
    rfl
  | some f =>
    have hfrac := ne_point (digits_isDigit (h.frac f hf))
    simp only [splitPoint, Amount.plain, Amount.fraction, hf, Option.map_some, Option.getD_some]
    rw [Grouping.takeWhile_append_cons _ (by decide), List.takeWhile_eq_self_iff.2 hwhole,
      List.dropWhile_append_of_pos hwhole, List.dropWhile_cons_of_neg (by decide), List.drop_one, List.tail_cons,
      List.takeWhile_eq_self_iff.2 hfrac]

theorem Amount.Valid.plain_empty (h : a.Valid) :
    (a.plain = [] ∨ a.plain = ['.']) ↔ a.whole.digits ++ a.fraction = [] := by
  have hwhole := ne_point (digits_isDigit h.whole)
  cases hf : a.frac with
  | none =>
    have hnot : a.whole.digits ≠ ['.'] := fun heq => by
      have := hwhole '.' (heq ▸ List.mem_cons_self)
      exact absurd this (by decide)
    simp [Amount.plain, Amount.fraction, hf, hnot]
  | some f =>
    simp only [Amount.plain, Amount.fraction, hf, Option.map_some, Option.getD_some]
    cases a.whole.digits <;> simp

theorem bigInt_eq (ds : List Char) : bigInt ds = Nat.ofDigitChars 10 ds 0 := by
  unfold bigInt
  split_ifs with hempty
  · rw [hempty]
    rfl
  · rfl

theorem bigInt_padEnd (ds : List Char) (n : Nat) :
    bigInt (padEnd ds n '0') = Nat.ofDigitChars 10 ds 0 * 10 ^ (n - ds.length) := by
  rw [bigInt_eq, padEnd, Nat.ofDigitChars_append, Nat.ofDigitChars_replicate_zero, Nat.mul_comm]

/-- **What the parser does with the text of two segments.** -/
theorem parseAmount_text (h : a.Valid) (ht : a.text = trim input) :
    parseAmount input decimals =
      if a.whole.digits ++ a.fraction = [] then none
      else if a.fraction.length > decimals then none
      else some (a.value decimals) := by
  simp only [parseAmount, ← ht, h.dropSeparators_text, h.isDecimal_plain, h.splitPoint_plain, Bool.true_eq_false, false_or,
    h.plain_empty, bigInt_eq a.whole.digits, bigInt_padEnd]
  rfl

theorem isDecimal_cases {text : List Char} (h : isDecimal text = true) : (∀ c ∈ text, c.isDigit = true) ∨
    ∃ ds fs, text = ds ++ '.' :: fs ∧ (∀ c ∈ ds, c.isDigit = true) ∧ ∀ c ∈ fs, c.isDigit = true := by
  have hsplit := List.takeWhile_append_dropWhile (p := Char.isDigit) (l := text)
  unfold isDecimal at h
  split at h
  · rename_i hdrop
    exact Or.inl (List.dropWhile_eq_nil_iff.1 hdrop)
  · rename_i c fs hdrop
    rw [Bool.and_eq_true, decide_eq_true_eq, List.all_eq_true] at h
    rw [hdrop, h.1] at hsplit
    exact Or.inr ⟨_, fs, hsplit.symm, fun c hc => List.mem_takeWhile_imp hc, h.2⟩

/-- **What the parser reads as a decimal is the text of two segments.** -/
theorem exists_amount (t : List Char) (h : isDecimal (dropSeparators t) = true) : ∃ a : Amount, a.Valid ∧ a.text = t := by
  rw [dropSeparators_eq] at h
  rcases isDecimal_cases h with hdigits | ⟨ds, fs, hplain, hds, hfs⟩
  · obtain ⟨s, hv, htext⟩ := Grouping.exists_segment comma_not_digit t hdigits
    exact ⟨⟨s, none⟩, ⟨hv, fun f hf => absurd hf (by simp)⟩, by simp [Amount.text, htext]⟩
  · have hpoint : '.' ∈ t := by
      have hstrip : '.' ∈ Grouping.strip Char.isDigit ',' 3 t ↔ '.' ∈ t := Grouping.mem_strip_of_ne (by decide) t
      rw [← hstrip, hplain]
      exact List.mem_append_right ds List.mem_cons_self
    obtain ⟨t₁, t₂, rfl⟩ := List.append_of_mem hpoint
    rw [Grouping.strip_append_cons point_not_digit (by decide)] at hplain
    -- there is one point
    have hnot : ∀ {ds : List Char}, (∀ c ∈ ds, c.isDigit = true) → '.' ∉ ds := fun h hmem =>
      absurd (h '.' hmem) (by decide)
    obtain ⟨h₁, -, h₂⟩ := (List.append_cons_inj_of_notMem (hnot hds) (hnot hfs)).1 hplain.symm
    obtain ⟨s, hs, htext⟩ := Grouping.exists_segment comma_not_digit t₁ (h₁ ▸ hds)
    obtain ⟨f, hf, hftext⟩ := Grouping.exists_segment comma_not_digit t₂ (h₂ ▸ hfs)
    refine ⟨⟨s, some f⟩, ⟨hs, fun g hg => ?_⟩, by simp [Amount.text, htext, hftext]⟩
    exact Option.some.inj hg ▸ hf

/-- **The parser takes exactly the texts of two segments**, and returns their value. -/
theorem parseAmount_iff : parseAmount input decimals = some v ↔
    ∃ a : Amount, a.text = trim input ∧ a.Fits decimals ∧ a.value decimals = v := by
  constructor
  · intro h
    have hdecimal : isDecimal (dropSeparators (trim input)) = true := by
      simp only [parseAmount] at h
      split_ifs at h with hbad
      rw [not_or, Bool.not_eq_false] at hbad
      exact hbad.1
    obtain ⟨a, hv, htext⟩ := exists_amount (trim input) hdecimal
    rw [parseAmount_text hv htext] at h
    split_ifs at h with hempty hlong
    exact ⟨a, htext, ⟨hv.whole, hv.frac, hempty, not_lt.1 hlong⟩, Option.some.inj h⟩
  · rintro ⟨a, htext, hf, rfl⟩
    rw [parseAmount_text ⟨hf.whole, hf.frac⟩ htext, if_neg hf.digits, if_neg (not_lt.2 hf.length)]

/-! ## The grammar against the parser -/

theorem Amount.Fits.text_injective (hf : a.Fits decimals) (hf' : a'.Fits decimals) (h : a.text = a'.text) : a = a' := by
  have hnot : ∀ {s : Segment Char}, s.Valid Char.isDigit 3 → '.' ∉ s.text ',' := by
    intro s hv hmem
    rcases List.mem_append.1 hmem with hmem | hmem
    · exact absurd (hv.first '.' hmem) (by decide)
    · obtain ⟨g, hg, hmem⟩ := List.mem_flatMap.1 hmem
      rcases List.mem_cons.1 hmem with hmem | hmem
      · exact absurd hmem (by decide)
      · exact absurd ((hv.groups g hg).2 '.' hmem) (by decide)
  obtain ⟨whole, frac⟩ := a
  obtain ⟨whole', frac'⟩ := a'
  cases frac with
  | none =>
    cases frac' with
    | none =>
      simp only [Amount.text, Option.map_none, Option.getD_none, List.append_nil] at h
      obtain rfl : whole = whole' := hf.whole.text_injective comma_not_digit hf'.whole h
      rfl
    | some f =>
      simp only [Amount.text, Option.map_none, Option.map_some, Option.getD_none, Option.getD_some, List.append_nil] at h
      exact absurd (h ▸ List.mem_append_right _ List.mem_cons_self) (hnot hf.whole)
  | some f =>
    cases frac' with
    | none =>
      simp only [Amount.text, Option.map_none, Option.map_some, Option.getD_none, Option.getD_some, List.append_nil] at h
      exact absurd (h ▸ List.mem_append_right _ List.mem_cons_self) (hnot hf'.whole)
    | some f' =>
      simp only [Amount.text, Option.map_some, Option.getD_some] at h
      obtain ⟨hwhole, -, hfrac⟩ := (List.append_cons_inj_of_notMem (hnot hf.whole) (hnot (hf.frac f rfl))).1 h
      obtain rfl : whole = whole' := hf.whole.text_injective comma_not_digit hf'.whole hwhole
      obtain rfl : f = f' := (hf.frac f rfl).text_injective comma_not_digit (hf'.frac f' rfl) hfrac
      rfl

/-- **The texts of the grammar parse to their values.** -/
theorem denotes_parses (h : Denotes decimals (trim input) v) : parseAmount input decimals = some v := by
  obtain ⟨a, htext, hf, -, hvalue⟩ := h
  exact parseAmount_iff.2 ⟨a, htext, hf, hvalue⟩

theorem Misgrouped.not_denotes (h : Misgrouped decimals t) : ¬ Denotes decimals t v := by
  obtain ⟨a, htext, hf, hnot⟩ := h
  rintro ⟨a', htext', hf', hg, -⟩
  obtain rfl := hf.text_injective hf' (htext.trans htext'.symm)
  exact hnot hg

/-- The parser takes exactly the grammar, with the exact value. -/
def Exact (input : List Char) (decimals : Nat) : Prop :=
  ∀ v, parseAmount input decimals = some v ↔ Denotes decimals (trim input) v

theorem exact_iff (input : List Char) (decimals : Nat) : Exact input decimals ↔ ¬ Misgrouped decimals (trim input) := by
  constructor
  · intro hexact hmis
    have hnot := fun v => hmis.not_denotes (v := v)
    obtain ⟨a, htext, hf, -⟩ := hmis
    exact hnot _ ((hexact _).1 (parseAmount_iff.2 ⟨a, htext, hf, rfl⟩))
  · intro hnot v
    refine ⟨fun h => ?_, denotes_parses⟩
    obtain ⟨a, htext, hf, hvalue⟩ := parseAmount_iff.1 h
    exact ⟨a, htext, hf, not_not.1 fun hg => hnot ⟨a, htext, hf, hg⟩, hvalue⟩

/-! ## The round trip -/

theorem isSpace_of_isDigit {c : Char} (h : c.isDigit = true) : isSpace c = false := by
  have hrange : 48 ≤ c.toNat ∧ c.toNat ≤ 57 := by
    simp only [Char.isDigit, Bool.and_eq_true, decide_eq_true_eq, ge_iff_le, UInt32.le_iff_toNat_le] at h
    exact h
  simp only [isSpace, List.contains_eq_mem, List.mem_cons, List.not_mem_nil, or_false, Bool.or_eq_false_iff,
    decide_eq_false_iff_not]
  omega

theorem Amount.Valid.trim_text (h : a.Valid) : trim a.text = a.text := by
  have hsegment : ∀ {s : Segment Char}, s.Valid Char.isDigit 3 → ∀ c ∈ s.text ',', isSpace c = false := by
    intro s hv c hc
    rcases List.mem_append.1 hc with hc | hc
    · exact isSpace_of_isDigit (hv.first c hc)
    · obtain ⟨g, hg, hc⟩ := List.mem_flatMap.1 hc
      rcases List.mem_cons.1 hc with rfl | hc
      · decide
      · exact isSpace_of_isDigit ((hv.groups g hg).2 c hc)
  have hall : ∀ c ∈ a.text, isSpace c = false := by
    intro c hc
    rcases List.mem_append.1 hc with hc | hc
    · exact hsegment h.whole c hc
    · cases hf : a.frac with
      | none =>
        rw [hf] at hc
        exact absurd hc List.not_mem_nil
      | some f =>
        rw [hf] at hc
        rcases List.mem_cons.1 hc with rfl | hc
        · decide
        · exact hsegment (h.frac f hf) c hc
  unfold trim
  have hfront : a.text.dropWhile isSpace = a.text := by
    refine List.dropWhile_eq_self_iff.2 fun hne => ?_
    rw [hall _ (List.getElem_mem _)]
    exact Bool.false_ne_true
  rw [hfront, List.rdropWhile_eq_self_iff]
  intro hne
  rw [hall _ (List.getLast_mem hne)]
  exact Bool.false_ne_true

theorem toDigits_isDigit (n : Nat) : ∀ c ∈ Nat.toDigits 10 n, c.isDigit = true := fun _ hc =>
  Nat.isDigit_of_mem_toDigits (by decide) (by decide) hc

theorem whole_segment (n : Nat) (grouping : Bool) : ∃ s : Segment Char, s.Valid Char.isDigit 3 ∧ s.Proper 3 ∧
    s.text ',' = (if grouping then group (Nat.toDigits 10 n) else Nat.toDigits 10 n) ∧ s.digits = Nat.toDigits 10 n := by
  cases grouping with
  | false =>
    refine ⟨⟨Nat.toDigits 10 n, []⟩, ⟨toDigits_isDigit n, fun _ h => absurd h List.not_mem_nil⟩, Or.inl rfl, ?_, ?_⟩ <;>
      simp [Segment.text, Segment.digits]
  | true =>
    obtain ⟨s, hv, htext, hdigits, hlen⟩ :=
      Grouping.group_segment ',' (show 0 < 3 by decide) _ (toDigits_isDigit n) Nat.toDigits_ne_nil
    have hlt := Nat.mod_lt ((Nat.toDigits 10 n).length - 1) (show 3 > 0 by decide)
    exact ⟨s, hv, Or.inr (by omega), htext, hdigits⟩

/-- The fraction of a value below one: as many digits as there are decimals. -/
theorem padStart_digits {n decimals : Nat} (hpos : 0 < decimals) (hn : n < 10 ^ decimals) :
    (padStart (Nat.toDigits 10 n) decimals '0').length = decimals ∧
      (∀ c ∈ padStart (Nat.toDigits 10 n) decimals '0', c.isDigit = true) ∧
      Nat.ofDigitChars 10 (padStart (Nat.toDigits 10 n) decimals '0') 0 = n := by
  have hlen := (Nat.length_toDigits_le_iff (b := 10) (by decide) hpos).2 hn
  refine ⟨?_, fun c hc => ?_, ?_⟩
  · rw [padStart, List.length_append, List.length_replicate]
    omega
  · rcases List.mem_append.1 hc with hc | hc
    · rw [List.eq_of_mem_replicate hc]
      decide
    · exact toDigits_isDigit n c hc
  · rw [padStart, Nat.ofDigitChars_append, Nat.ofDigitChars_replicate_zero, Nat.mul_zero, Nat.ofDigitChars_ten_toDigits]

/-- **A value formatted at full precision is a text of the grammar that denotes it.** -/
theorem formatFixed_denotes (v decimals : Nat) (rounding : Rounding) (grouping : Bool) :
    ∃ a : Amount, a.text = formatFixed v decimals decimals ⟨rounding, grouping, .auto⟩ ∧ a.Fits decimals ∧
      a.Grammatical ∧ a.value decimals = v := by
  have hrescale : rescale v decimals decimals rounding = v := by
    rw [rescale, if_pos (le_refl _), Nat.sub_self, pow10, pow_zero, mul_one]
  have habs : |(v : Int)| = v := abs_of_nonneg (Int.natCast_nonneg v)
  have hunit : pow10 decimals = ((10 ^ decimals : Nat) : Int) := by
    rw [pow10]
    push_cast
    rfl
  have hwhole : digitsOf ((v : Int).tdiv (pow10 decimals)) = Nat.toDigits 10 (v / 10 ^ decimals) := by
    rw [digitsOf, hunit, Int.natCast_tdiv_eq_ediv, ← Int.natCast_ediv, Int.toNat_natCast]
  have hfrac : digitsOf ((v : Int).tmod (pow10 decimals)) = Nat.toDigits 10 (v % 10 ^ decimals) := by
    rw [digitsOf, hunit, ← Int.ofNat_tmod, Int.toNat_natCast]
  obtain ⟨s, hs, hproper, htext, hdigits⟩ := whole_segment (v / 10 ^ decimals) grouping
  have hne : s.digits ≠ [] := hdigits ▸ Nat.toDigits_ne_nil
  have hvalue : Nat.ofDigitChars 10 s.digits 0 = v / 10 ^ decimals := by
    rw [hdigits, Nat.ofDigitChars_ten_toDigits]
  have hnonneg : ¬ (v : Int) < 0 := not_lt.2 (Int.natCast_nonneg v)
  have hformat : formatFixed v decimals decimals ⟨rounding, grouping, .auto⟩ = s.text ',' ++
      if decimals > 0 then '.' :: padStart (Nat.toDigits 10 (v % 10 ^ decimals)) decimals '0' else [] := by
    simp only [formatFixed, hrescale, habs, hwhole, hfrac, if_neg hnonneg, reduceCtorEq, false_and, if_false,
      List.nil_append, htext]
  rw [hformat]
  rcases Nat.eq_zero_or_pos decimals with rfl | hpos
  · refine ⟨⟨s, none⟩, ?_, ⟨hs, fun f hf => absurd hf (by simp), ?_, Nat.zero_le _⟩, ⟨hproper, fun f hf => absurd hf (by simp)⟩, ?_⟩
    · simp [Amount.text]
    · simp [Amount.fraction, hne]
    · simp [Amount.value, Amount.fraction, hvalue]
  · obtain ⟨hlen, hall, hpart⟩ := padStart_digits hpos (Nat.mod_lt v (Nat.pow_pos (n := decimals) (by decide : 0 < 10)))
    generalize padStart (Nat.toDigits 10 (v % 10 ^ decimals)) decimals '0' = fs at hlen hall hpart ⊢
    have hfs : (⟨fs, []⟩ : Segment Char).digits = fs := by simp [Segment.digits]
    refine ⟨⟨s, some ⟨fs, []⟩⟩, ?_, ⟨hs, fun f hf => ?_, ?_, ?_⟩, ⟨hproper, fun f hf => ?_⟩, ?_⟩
    · simp [Amount.text, Segment.text, if_pos hpos]
    · obtain rfl := Option.some.inj hf
      exact ⟨hall, fun _ h => absurd h List.not_mem_nil⟩
    · simp [hne]
    · simp [Amount.fraction, hfs, hlen]
    · obtain rfl := Option.some.inj hf
      rfl
    · simp only [Amount.value, Amount.fraction, Option.map_some, Option.getD_some, hfs, hlen, hvalue, hpart, Nat.sub_self,
        pow_zero, mul_one]
      rw [mul_comm]
      exact Nat.div_add_mod v (10 ^ decimals)

/-- **The parser is exact except on misgrouped texts, and reads back what is formatted at full precision.** -/
theorem amount_exact (decimals : Nat) :
    (∀ input, Exact input decimals ↔ ¬ Misgrouped decimals (trim input)) ∧
      ∀ (v : Nat) (rounding : Rounding) (grouping : Bool),
        parseAmount (formatFixed v decimals decimals ⟨rounding, grouping, .auto⟩) decimals = some v := by
  refine ⟨fun input => exact_iff input decimals, fun v rounding grouping => ?_⟩
  obtain ⟨a, htext, hf, hg, hvalue⟩ := formatFixed_denotes v decimals rounding grouping
  refine denotes_parses ⟨a, ?_, hf, hg, hvalue⟩
  rw [← htext, Amount.Valid.trim_text ⟨hf.whole, hf.frac⟩]

/-- A comma in the fraction is taken for a separator: a European fifteen hundred becomes one and a half. -/
theorem amount_misgrouped : parseAmount ['1', '.', '5', ',', '0', '0', '0'] 6 = some 1500000 ∧
    ¬ Exact ['1', '.', '5', ',', '0', '0', '0'] 6 := by
  refine ⟨by decide, fun h => (exact_iff _ 6).1 h ?_⟩
  refine ⟨⟨⟨['1'], []⟩, some ⟨['5'], [['0', '0', '0']]⟩⟩, by decide,
    ⟨⟨List.forall_mem_singleton.2 (by decide), by simp⟩, ?_, by decide, by decide⟩, ?_⟩
  · intro f hf
    obtain rfl := Option.some.inj hf
    have hzero : ∀ c ∈ ['0', '0', '0'], c.isDigit = true := by simp
    exact ⟨List.forall_mem_singleton.2 (by decide), List.forall_mem_singleton.2 ⟨rfl, hzero⟩⟩
  · intro hg
    exact absurd (hg.frac _ rfl) (by decide)

end Kryon.Format
