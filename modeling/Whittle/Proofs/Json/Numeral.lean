import Whittle.Json.Token
import Whittle.Json.Write
import Whittle.Proofs.Decimal.Numeral
import Whittle.Proofs.Decimal.Shortest

/-!
# Numerals are read back

A number is read back from what is written for it: a whole number as a whole number, since its
numeral has neither a point nor an exponent, and a finite double as the same double, since every
way to write its shortest decimal denotes that decimal.
-/

namespace Whittle.Json

open Decimal

variable {negative : Bool} {whole frac digits : List Char}

/-! ## Reading digits -/

/-- A run of digits, at least one. -/
def IsDigits (cs : List Char) : Prop := cs ≠ [] ∧ ∀ c ∈ cs, c.isDigit = true

/-- What does not begin with a digit. -/
def NoDigit (cs : List Char) : Prop := ∀ c ∈ cs.head?, c.isDigit = false

theorem takeWhile_digits (hdigits : ∀ c ∈ digits, c.isDigit = true) (rest : List Char)
    (hrest : NoDigit rest) :
    (digits ++ rest).takeWhile Char.isDigit = digits ∧
      (digits ++ rest).dropWhile Char.isDigit = rest := by
  rw [List.takeWhile_append_of_pos hdigits, List.dropWhile_append_of_pos hdigits]
  cases rest with
  | nil => simp
  | cons c cs =>
    have hc := hrest c rfl
    simp [hc]

/-- Digits that may stand before a point: a single zero, or no zero first. -/
def IsWhole (cs : List Char) : Prop := IsDigits cs ∧ (cs = ['0'] ∨ cs.head? ≠ some '0')

theorem unsigned?_append (hwhole : IsWhole whole) {rest : List Char} (hrest : NoDigit rest) :
    unsigned? negative (whole ++ rest) = afterWhole? negative whole rest := by
  obtain ⟨⟨hne, hdigits⟩, hlead⟩ := hwhole
  obtain ⟨htake, hdrop⟩ := takeWhile_digits hdigits rest hrest
  rw [unsigned?, htake, hdrop]
  match whole, hne, hlead with
  | ['0'], _, _ => rfl
  | '0' :: _ :: _, _, hlead => simp at hlead
  | c :: cs, _, hlead =>
    split
    · contradiction
    · simp_all
    · rfl

theorem exponent?_digits (hdigits : IsDigits digits) (sign : Bool) :
    exponent? ((if sign then '-' else '+') :: digits)
      = some (if sign then -(natOfDigits digits : Int) else natOfDigits digits) := by
  have hall : digits.all Char.isDigit = true := List.all_eq_true.2 hdigits.2
  have hne : digits.isEmpty = false := by simpa using hdigits.1
  cases sign <;> simp [exponent?, hall, hne]

/-- Digits around a point are a fraction. -/
theorem unsigned?_point (hwhole : IsWhole whole) (hfrac : IsDigits frac) :
    unsigned? negative (whole ++ '.' :: frac) = some (fraction negative whole frac 0) := by
  obtain ⟨htake, hdrop⟩ := takeWhile_digits hfrac.2 [] (by simp [NoDigit])
  rw [List.append_nil] at htake hdrop
  have hne : frac.isEmpty = false := by simpa using hfrac.1
  rw [unsigned?_append hwhole (by simp [NoDigit])]
  simp [afterWhole?, htake, hdrop, hne]

variable {e : List Char} {n : Int}

/-- Digits before an exponent are a fraction without digits after the point. -/
theorem unsigned?_exponent (hwhole : IsWhole whole) (he : exponent? e = some n) :
    unsigned? negative (whole ++ 'e' :: e) = some (fraction negative whole [] n) := by
  rw [unsigned?_append hwhole (by simp [NoDigit]), afterWhole?, he, Option.map_some]

/-- Digits around a point and before an exponent are a fraction. -/
theorem unsigned?_point_exponent (hwhole : IsWhole whole) (hfrac : IsDigits frac)
    (he : exponent? e = some n) : unsigned? negative (whole ++ '.' :: (frac ++ 'e' :: e))
      = some (fraction negative whole frac n) := by
  obtain ⟨htake, hdrop⟩ := takeWhile_digits hfrac.2 ('e' :: e) (by simp [NoDigit])
  have hne : frac.isEmpty = false := by simpa using hfrac.1
  rw [unsigned?_append hwhole (by simp [NoDigit])]
  simp [afterWhole?, htake, hdrop, hne, he]

/-! ## Reading decimals -/

section Decimals

variable {s : String} (hs : IsDigits s.toList) (hlead : s.toList.head? ≠ some '0')

include hs

/-- Zeros and digits after a point are read as the number that they denote. -/
theorem unsigned?_belowOne (k : Nat) : unsigned? negative ("0." ++ zeros k ++ s).toList
    = some (.float (Double.ofDecimal negative (natOfDigits s.toList) (-(k + s.length : Nat)))) := by
  have hfrac : IsDigits (List.replicate k '0' ++ s.toList) :=
    ⟨List.append_ne_nil_of_right_ne_nil _ hs.1, fun c hc =>
      (List.mem_append.1 hc).elim isDigit_of_mem_zeros (hs.2 c)⟩
  have htext : ("0." ++ zeros k ++ s).toList
      = ['0'] ++ '.' :: (List.replicate k '0' ++ s.toList) := by
    simp [zeros]
  rw [htext, unsigned?_point ⟨by simp [IsDigits], .inl rfl⟩ hfrac, fraction,
    List.singleton_append, natOfDigits_zero_cons, natOfDigits_append, natOfDigits_replicate,
    Nat.zero_mul, Nat.zero_add, List.length_append, List.length_replicate, String.length_toList,
    zero_sub]

include hlead

/-- Digits and zeros before a point are read as the number that they denote. -/
theorem unsigned?_aboveOne (k : Nat) : unsigned? negative (s ++ zeros k ++ ".0").toList
    = some (.float (Double.ofDecimal negative (natOfDigits s.toList) k)) := by
  have hwhole : IsWhole (s.toList ++ List.replicate k '0') := by
    refine ⟨⟨List.append_ne_nil_of_left_ne_nil hs.1 _, fun c hc =>
      (List.mem_append.1 hc).elim (hs.2 c) isDigit_of_mem_zeros⟩, .inr ?_⟩
    rwa [List.head?_append_of_ne_nil _ hs.1]
  have htext : (s ++ zeros k ++ ".0").toList
      = s.toList ++ List.replicate k '0' ++ '.' :: ['0'] := by
    simp [zeros]
  rw [htext, unsigned?_point hwhole (by simp [IsDigits]), fraction]
  refine congrArg (fun x => some (Plain.float x)) (Double.ofDecimal_congr _ ?_)
  rw [natOfDigits_append, natOfDigits_append, natOfDigits_replicate]
  simp [natOfDigits]

/-- Digits with a point among them are read as the number that they denote. -/
theorem unsigned?_among {w : Nat} (hw : 0 < w) (hlt : w < s.length) :
    unsigned? negative
        (String.ofList (s.toList.take w) ++ "." ++ String.ofList (s.toList.drop w)).toList
      = some (.float (Double.ofDecimal negative (natOfDigits s.toList) (w - s.length))) := by
  rw [← String.length_toList] at hlt ⊢
  have hwhole : IsWhole (s.toList.take w) := by
    refine ⟨⟨?_, fun c hc => hs.2 c (List.mem_of_mem_take hc)⟩, .inr ?_⟩
    · rw [Ne, List.take_eq_nil_iff]
      exact fun h => h.elim (Nat.ne_of_gt hw) hs.1
    · rwa [List.head?_take, if_neg (Nat.ne_of_gt hw)]
  have hfrac : IsDigits (s.toList.drop w) :=
    ⟨by rw [Ne, List.drop_eq_nil_iff]; omega, fun c hc => hs.2 c (List.mem_of_mem_drop hc)⟩
  have htext : (String.ofList (s.toList.take w) ++ "." ++ String.ofList (s.toList.drop w)).toList
      = s.toList.take w ++ '.' :: s.toList.drop w := by
    simp
  rw [htext, unsigned?_point hwhole hfrac, fraction, List.take_append_drop, List.length_drop]
  congr 3
  omega

/-- A decimal without an exponent is read as the number that it denotes. -/
theorem unsigned?_positional (e : Int) :
    unsigned? negative (positional s (e + s.length - 1)).toList
      = some (.float (Double.ofDecimal negative (natOfDigits s.toList) e)) := by
  have hpos : 0 < s.length := String.length_toList ▸ List.length_pos_iff.2 hs.1
  simp only [positional]
  split
  · rw [unsigned?_belowOne hs]
    congr 3
    omega
  · split
    · rw [unsigned?_aboveOne hs hlead]
      congr 3
      omega
    · rw [unsigned?_among hs hlead (Nat.succ_pos _) (by omega)]
      congr 3
      omega

/-- A decimal with an exponent is read as the number that it denotes. -/
theorem unsigned?_scientific (f : NumeralStyle) (e : Int) :
    unsigned? negative (scientific f s (e + s.length - 1)).toList
      = some (.float (Double.ofDecimal negative (natOfDigits s.toList) e)) := by
  rw [← String.length_toList]
  generalize hplace : e + s.toList.length - 1 = place
  have hpadded : IsDigits (padded f.exponentDigits place.natAbs).toList :=
    ⟨padded_ne_nil _, fun c hc => isDigit_of_mem_padded hc⟩
  have hexponent := exponent?_digits hpadded (decide (place < 0))
  have hvalue : (if place < 0 then -(place.natAbs : Int) else place.natAbs) = place := by
    split <;> omega
  simp only [natOfDigits_padded, decide_eq_true_eq, hvalue] at hexponent
  have hmark : (if place < 0 then "e-" else "e+").toList
      = ['e', if place < 0 then '-' else '+'] := by
    split <;> rfl
  rw [scientific, String.toList_append, String.toList_append, hmark]
  generalize (padded f.exponentDigits place.natAbs).toList = shift at hexponent
  generalize (if place < 0 then '-' else '+') = sign at hexponent
  generalize s.toList = ds at hs hlead hplace
  cases ds with
  | nil => exact absurd rfl hs.1
  | cons d rest =>
    cases rest with
    | nil =>
      -- one digit: the exponent follows at once
      obtain rfl : e = place := by simpa using hplace
      have htext : (String.ofList [d]).toList ++ ['e', sign] ++ shift
          = [d] ++ 'e' :: sign :: shift := by
        simp
      simp only [htext]
      rw [unsigned?_exponent ⟨hs, .inr hlead⟩ hexponent]
      simp [fraction]
    | cons d' rest =>
      have hwhole : IsWhole [d] := ⟨⟨by simp, by simpa using hs.2 d⟩, .inr hlead⟩
      have hfrac : IsDigits (d' :: rest) :=
        ⟨by simp, fun c hc => hs.2 c (List.mem_cons_of_mem _ hc)⟩
      have htext : (String.ofList (d :: '.' :: d' :: rest)).toList ++ ['e', sign] ++ shift
          = [d] ++ '.' :: (d' :: rest ++ 'e' :: sign :: shift) := by
        simp
      simp only [htext]
      rw [unsigned?_point_exponent hwhole hfrac hexponent, fraction, List.singleton_append]
      congr 3
      rw [List.length_cons] at hplace
      omega

end Decimals

/-- The absolute value of a finite double other than zero is read, under its sign, as the double. -/
theorem unsigned?_magnitudeText (f : NumeralStyle) {x : Double} (hfinite : x.isFinite = true)
    (hzero : x.isZero = false) :
    unsigned? x.isNegative (magnitudeText f x).toList = some (.float x) := by
  have hs : IsDigits (natText (shortest x).digits).toList :=
    ⟨natText_ne_nil, fun c hc => isDigit_of_mem_natText hc⟩
  have hlead := head?_natText (shortest_digits_pos hfinite hzero)
  have hreads := Scaled.readsAs_iff.1 (readsAs_shortest hfinite hzero)
  simp only [magnitudeText]
  split
  · rw [unsigned?_positional hs hlead, natOfDigits_natText, hreads]
  · rw [unsigned?_scientific hs hlead f, natOfDigits_natText, hreads]

/-! ## Reading numbers -/

/-- A sign before a number without a sign is read with it. -/
theorem number?_of_unsigned? {cs : List Char} {v : Plain} (h : unsigned? negative cs = some v) :
    number? ((if negative then ['-'] else []) ++ cs) = some v := by
  cases negative with
  | true => exact h
  | false =>
    rw [if_neg Bool.false_ne_true, List.nil_append]
    unfold number?
    split
    · cases h
    · exact h

/-- A whole number is read back as a whole number. -/
theorem number?_intText (i : Int) : number? (intText i).toList = some (.int i) := by
  have hwhole : IsWhole (natText i.natAbs).toList := by
    refine ⟨⟨natText_ne_nil, fun c hc => isDigit_of_mem_natText hc⟩, ?_⟩
    rcases Nat.eq_zero_or_pos i.natAbs with hzero | hpos
    · rw [hzero]
      exact .inl rfl
    · exact .inr (head?_natText hpos)
  have hread : unsigned? (decide (i < 0)) (natText i.natAbs).toList = some (.int i) := by
    rw [← List.append_nil (natText i.natAbs).toList,
      unsigned?_append hwhole (by simp [NoDigit]), afterWhole?, natOfDigits_natText]
    simp only [decide_eq_true_eq]
    congr 2
    split <;> omega
  have htext : (intText i).toList
      = (if decide (i < 0) then ['-'] else []) ++ (natText i.natAbs).toList := by
    by_cases hi : i < 0 <;> simp [intText, hi]
  rw [htext, number?_of_unsigned? hread]

/-- A finite double is read back as the same double; a zero keeps its sign. -/
theorem number?_doubleText {x : Double} (hfinite : x.isFinite = true) :
    number? (doubleText numeralStyle x).toList = some (.float x) := by
  have hnumber : x.isNaN = false ∧ x.isInfinite = false := by
    simp only [Double.isFinite, decide_eq_true_eq] at hfinite
    simp only [Double.isNaN, Double.isInfinite, decide_eq_false_iff_not, beq_eq_false_iff_ne]
    omega
  have hread : unsigned? x.isNegative
      (if x.isZero then "0.0" else magnitudeText numeralStyle x).toList = some (.float x) := by
    cases hzero : x.isZero with
    | true =>
      rw [if_pos rfl, show "0.0".toList = ['0'] ++ '.' :: ['0'] from rfl,
        unsigned?_point ⟨by simp [IsDigits], .inl rfl⟩ (by simp [IsDigits])]
      exact congrArg (fun y => some (Plain.float y)) (Double.eq_zero_of_isZero hzero).symm
    | false => exact unsigned?_magnitudeText _ hfinite hzero
  have htext : (doubleText numeralStyle x).toList = (if x.isNegative then ['-'] else [])
      ++ (if x.isZero then "0.0" else magnitudeText numeralStyle x).toList := by
    rw [doubleText, hnumber.1, hnumber.2]
    cases x.isNegative <;> simp
  rw [htext, number?_of_unsigned? hread]

/-- No word is a number. -/
theorem bare?_of_number? {cs : List Char} {v : Plain} (h : number? cs = some v) :
    bare? cs = some v := by
  have hword : ∀ w : String, number? w.toList = none → String.ofList cs ≠ w := by
    rintro _ hnone rfl
    rw [String.toList_ofList, h] at hnone
    cases hnone
  unfold bare?
  split
  case h_7 => exact h
  all_goals exact absurd ‹_› (hword _ rfl)

/-! ## Bare characters -/

theorem isBare_of_isDigit {c : Char} (h : c.isDigit = true) : isBare c = true := by
  simp [isBare, Char.isAlphanum, h]

theorem all_isBare (h : ∀ c ∈ digits, c.isDigit = true) : digits.all isBare = true :=
  List.all_eq_true.2 fun c hc => isBare_of_isDigit (h c hc)

theorem all_isBare_of_exponent? {cs : List Char} {e : Int} (h : exponent? cs = some e) :
    cs.all isBare = true := by
  have hbare : ∀ {ds : List Char} {n : Int},
      (if !ds.isEmpty && ds.all Char.isDigit then some n else none) = some e →
        ds.all isBare = true := by
    intro ds n hds
    split at hds
    · rename_i hdigits
      exact all_isBare (List.all_eq_true.1 (Bool.and_eq_true_iff.1 hdigits).2)
    · cases hds
  unfold exponent? at h
  split at h
  · rw [List.all_cons, hbare h]
    rfl
  · rw [List.all_cons, hbare h]
    rfl
  · exact hbare h

theorem all_isBare_of_afterWhole? {cs : List Char} {v : Plain}
    (h : afterWhole? negative whole cs = some v) : cs.all isBare = true := by
  have hexponent : ∀ {c : Char} {e : List Char} {f : Int → Plain}, isBare c = true →
      (exponent? e).map f = some v → (c :: e).all isBare = true := by
    intro c e f hc he
    obtain ⟨n, hn, -⟩ := Option.map_eq_some_iff.1 he
    rw [List.all_cons, hc, all_isBare_of_exponent? hn]
    rfl
  unfold afterWhole? at h
  split at h
  · rfl
  · rename_i rest
    simp only at h
    split at h
    · cases h
    · have hfrac : (rest.takeWhile Char.isDigit).all isBare = true :=
        all_isBare fun c hc => List.mem_takeWhile_imp hc
      rw [← List.takeWhile_append_dropWhile (p := Char.isDigit) (l := rest), List.all_cons,
        List.all_append, hfrac]
      split at h
      · rename_i heq
        rw [heq]
        rfl
      · rename_i heq
        rw [heq, hexponent rfl h]
        rfl
      · rename_i heq
        rw [heq, hexponent rfl h]
        rfl
      · cases h
  · exact hexponent rfl h
  · exact hexponent rfl h
  · cases h

theorem all_isBare_of_unsigned? {cs : List Char} {v : Plain} (h : unsigned? negative cs = some v) :
    cs ≠ [] ∧ cs.all isBare = true := by
  unfold unsigned? at h
  have hwhole : (cs.takeWhile Char.isDigit).all isBare = true :=
    all_isBare fun c hc => List.mem_takeWhile_imp hc
  refine ⟨(by rintro rfl; cases h), ?_⟩
  rw [← List.takeWhile_append_dropWhile (p := Char.isDigit) (l := cs), List.all_append, hwhole]
  split at h
  · cases h
  · cases h
  · exact all_isBare_of_afterWhole? h

/-- A number consists of bare characters. -/
theorem all_isBare_of_number? {cs : List Char} {v : Plain} (h : number? cs = some v) :
    cs ≠ [] ∧ cs.all isBare = true := by
  unfold number? at h
  split at h
  · rw [List.all_cons, (all_isBare_of_unsigned? h).2]
    exact ⟨List.cons_ne_nil _ _, rfl⟩
  · exact all_isBare_of_unsigned? h

end Whittle.Json
