import Asm65.Proofs.Lexemes
import Mathlib.Data.List.Basic
import Mathlib.Data.List.Induction
import Mathlib.Data.Nat.Digits.Defs

/-!
# The values of numerals

A numeral stands for the number that its digits denote in their base, if that number has
sixteen bits.  Its digits are read from the left, so the first of them that cannot be taken up
decides about the failure: it is no digit of the base, or the value passes sixteen bits with it.
-/

namespace Asm65

/-!
# Digits
-/

namespace Numeral

/-- The digits of all bases, in the order of their values. -/
def digitChars : List Char :=
  "0123456789ABCDEF".toList

def digitValue (c : Char) : Nat :=
  digitChars.idxOf c

/-- A base uses the first digits, as many as it says. -/
def IsDigit (base : Nat) (c : Char) : Prop :=
  digitValue c < base

instance (base : Nat) (c : Char) : Decidable (IsDigit base c) :=
  inferInstanceAs (Decidable (_ < _))

/-- The number that digits denote, whose last digit counts once. -/
def value (base : Nat) (digits : List Char) : Nat :=
  Nat.ofDigits base (digits.reverse.map digitValue)

theorem value_concat (base : Nat) (digits : List Char) (c : Char) :
    value base (digits ++ [c]) = value base digits * base + digitValue c := by
  unfold value
  rw [List.reverse_append, List.reverse_singleton, List.singleton_append, List.map_cons,
    Nat.ofDigits_cons, Nat.mul_comm, Nat.add_comm]

theorem value_le_concat {base : Nat} (hbase : 0 < base) (digits : List Char) (c : Char) :
    value base digits ≤ value base (digits ++ [c]) := by
  have hmul := Nat.le_mul_of_pos_right (value base digits) hbase
  rw [value_concat]
  omega

theorem isHexDigit_iff_mem {c : Char} : Hex.isDigit c = true <-> c ∈ digitChars := by
  constructor
  · intro h
    rw [Shape.isHexDigit_iff, Shape.isDecimal_iff] at h
    rcases h with hdecimal | hletter
    · exact Lexeme.mem_of_code (by decide) hdecimal
    · exact Lexeme.mem_of_code (by decide) hletter
  · have hall : digitChars.all Hex.isDigit = true := by decide
    exact List.all_eq_true.mp hall c

theorem value?_eq (c : Char) :
    Hex.value? c = if digitValue c < 16 then some (digitValue c) else none := by
  by_cases hmem : c ∈ digitChars
  · have hall : (digitChars.all fun c =>
        Hex.value? c == if digitValue c < 16 then some (digitValue c) else none) = true := by
      decide
    exact beq_iff_eq.mp (List.all_eq_true.mp hall c hmem)
  · have hlength : digitValue c = 16 := List.idxOf_eq_length_iff.mpr hmem
    have hnone : ¬ Hex.isDigit c = true := fun h => hmem (isHexDigit_iff_mem.mp h)
    rw [Hex.isDigit, Option.not_isSome_iff_eq_none] at hnone
    rw [hnone, hlength]
    rfl

end Numeral

namespace Radix

open Numeral

theorem base_pos (radix : Radix) : 0 < radix.base := by
  cases radix <;> decide

theorem base_le (radix : Radix) : radix.base ≤ 16 := by
  cases radix <;> decide

theorem digit?_eq (radix : Radix) (c : Char) :
    radix.digit? c = if IsDigit radix.base c then some (digitValue c) else none := by
  rw [digit?, value?_eq]
  by_cases hdigit : IsDigit radix.base c
  · have hlt : digitValue c < radix.base := hdigit
    rw [if_pos hdigit, if_pos (hlt.trans_le radix.base_le), Option.filter_some,
      if_pos (decide_eq_true hlt)]
  · have hge : ¬ digitValue c < radix.base := hdigit
    rw [if_neg hdigit]
    split
    · rw [Option.filter_some, if_neg (by simpa using hge)]
    · rfl

end Radix

namespace Numeral

/-!
# Reading digits
-/

theorem readFrom_singleton (radix : Radix) (v : Nat) (c : Char) :
    readFrom radix v [c] =
      if IsDigit radix.base c then
        if v * radix.base + digitValue c ≤ 65535 then
          .ok (v * radix.base + digitValue c)
        else .error .tooLarge
      else .error radix.invalid := by
  rw [readFrom, Radix.digit?_eq]
  by_cases hdigit : IsDigit radix.base c
  · simp only [if_pos hdigit, readFrom]
  · simp only [if_neg hdigit]

theorem readFrom_singleton_eq_ok_iff {radix : Radix} {v w : Nat} {c : Char} :
    readFrom radix v [c] = .ok w <->
      IsDigit radix.base c ∧ w ≤ 65535 ∧ w = v * radix.base + digitValue c := by
  rw [readFrom_singleton]
  split
  · next hdigit =>
      split
      · next hle =>
          constructor
          · intro h
            cases h
            exact ⟨hdigit, hle, rfl⟩
          · intro h
            rw [h.right.right]
      · next hle =>
          constructor
          · intro h
            cases h
          · intro h
            rw [h.right.right] at h
            exact (hle h.right.left).elim
  · next hdigit =>
      constructor
      · intro h
        cases h
      · intro h
        exact (hdigit h.left).elim

theorem readFrom_eq_ok_iff {radix : Radix} {digits : List Char} {v : Nat} :
    readFrom radix 0 digits = .ok v <->
      (forall c, c ∈ digits -> IsDigit radix.base c) ∧
        v ≤ 65535 ∧ v = value radix.base digits := by
  -- the value grows with each digit, so that only the last bound matters
  induction digits using List.reverseRecOn generalizing v with
  | nil =>
      constructor
      · intro h
        cases h
        exact ⟨fun c hc => (List.not_mem_nil hc).elim, Nat.zero_le _, rfl⟩
      · intro h
        rw [h.right.right]
        rfl
  | append_singleton digits c ih =>
      rw [readFrom_append, bind_eq_ok_iff]
      simp only [ih, readFrom_singleton_eq_ok_iff, List.forall_mem_append,
        List.forall_mem_singleton, value_concat]
      constructor
      · intro h
        rcases h with ⟨_, ⟨hdigits, _, rfl⟩, hdigit, hle, hv⟩
        exact ⟨⟨hdigits, hdigit⟩, hle, hv⟩
      · intro h
        rcases h with ⟨⟨hdigits, hdigit⟩, hle, hv⟩
        have hgrows := value_le_concat radix.base_pos digits c
        rw [value_concat, <- hv] at hgrows
        exact ⟨_, ⟨hdigits, hgrows.trans hle, rfl⟩, hdigit, hle, hv⟩

/-!
# Where reading stops
-/

/-- The digit with this index is none of the base, or the value passes sixteen bits with it. -/
def Spoils (base : Nat) (digits : List Char) (i : Nat) : Prop :=
  exists c, c ∈ digits[i]? ∧ (¬ IsDigit base c ∨ 65535 < value base (digits.take (i + 1)))

instance (base : Nat) (digits : List Char) (i : Nat) : Decidable (Spoils base digits i) :=
  decidable_of_iff
    (digits[i]?.any (fun c =>
      decide (¬ IsDigit base c ∨ 65535 < value base (digits.take (i + 1)))) = true)
    (by simp [Spoils, Option.any_eq_true])

/-- The first digit that spoils the numeral. -/
structure FirstSpoils (base : Nat) (digits : List Char) (i : Nat) : Prop where
  spoils : Spoils base digits i
  first : forall j, j < i -> ¬ Spoils base digits j

theorem readFrom_take {radix : Radix} {digits : List Char} {i : Nat} (hi : i ≤ digits.length)
    (h : forall j, j < i -> ¬ Spoils radix.base digits j) :
    readFrom radix 0 (digits.take i) = .ok (value radix.base (digits.take i)) := by
  apply readFrom_eq_ok_iff.mpr
  refine ⟨?_, ?_, rfl⟩
  · intro c hc
    rcases List.mem_take_iff_getElem.mp hc with ⟨j, hj, rfl⟩
    by_contra hdigit
    have hlt : j < digits.length := by omega
    exact h j (by omega) ⟨digits[j], List.getElem?_eq_getElem hlt, Or.inl hdigit⟩
  · cases i with
    | zero => exact Nat.zero_le _
    | succ i =>
        by_contra hlarge
        exact h i (Nat.lt_succ_self i)
          ⟨digits[i], List.getElem?_eq_getElem hi, Or.inr (Nat.lt_of_not_le hlarge)⟩

/-- The failure at a digit that spoils a numeral. -/
def faultOf (base : Nat) (invalid : LexError.Kind) (c : Char) : LexError.Kind :=
  if IsDigit base c then .tooLarge else invalid

theorem readFrom_of_firstSpoils {radix : Radix} {digits : List Char} {i : Nat} {c : Char}
    (h : FirstSpoils radix.base digits i) (hc : digits[i]? = some c) :
    readFrom radix 0 digits = .error (faultOf radix.base radix.invalid c) := by
  rcases List.getElem?_eq_some_iff.mp hc with ⟨hi, hget⟩
  have htake : digits.take (i + 1) = digits.take i ++ [c] := by
    rw [List.take_succ_eq_append_getElem hi, hget]
  have hstop : readFrom radix (value radix.base (digits.take i)) [c] =
      .error (faultOf radix.base radix.invalid c) := by
    rcases h.spoils with ⟨d, hd, hbad⟩
    rw [hc] at hd
    cases hd
    rw [htake, value_concat] at hbad
    rw [readFrom_singleton, faultOf]
    by_cases hdigit : IsDigit radix.base c
    · have hlarge := hbad.resolve_left (not_not_intro hdigit)
      rw [if_pos hdigit, if_pos hdigit, if_neg (Nat.not_le_of_lt hlarge)]
    · rw [if_neg hdigit, if_neg hdigit]
  rw [<- List.take_append_drop (i + 1) digits, readFrom_append, htake, readFrom_append,
    readFrom_take (Nat.le_of_lt hi) h.first]
  show (readFrom radix (value radix.base (digits.take i)) [c] >>= _) = _
  rw [hstop]
  rfl

theorem exists_firstSpoils {radix : Radix} {digits : List Char} {kind : LexError.Kind}
    (h : readFrom radix 0 digits = .error kind) : exists i, FirstSpoils radix.base digits i := by
  by_cases hspoils : exists i, Spoils radix.base digits i
  · exact ⟨Nat.find hspoils, Nat.find_spec hspoils, fun j hj => Nat.find_min hspoils hj⟩
  · have hall := readFrom_take (Nat.le_refl digits.length)
      (fun j _ hj => hspoils ⟨j, hj⟩)
    rw [List.take_length, h] at hall
    cases hall

theorem readFrom_eq_error_iff {radix : Radix} {digits : List Char} {kind : LexError.Kind} :
    readFrom radix 0 digits = .error kind <->
      exists i c, FirstSpoils radix.base digits i ∧ digits[i]? = some c ∧
        kind = faultOf radix.base radix.invalid c := by
  constructor
  · intro h
    rcases exists_firstSpoils h with ⟨i, hi⟩
    rcases hi.spoils with ⟨c, hc, _⟩
    rw [readFrom_of_firstSpoils hi hc] at h
    cases h
    exact ⟨i, c, hi, hc, rfl⟩
  · intro h
    rcases h with ⟨i, c, hi, hc, rfl⟩
    exact readFrom_of_firstSpoils hi hc

/-!
# Numerals
-/

/-- A digit or the mark of a base, then digits of any base. -/
def IsNumeral (lexeme : List Char) : Prop :=
  exists c body, lexeme = c :: body ∧ (c ∈ Lexeme.decimalChars ∨ c = '%' ∨ c = '$') ∧
    forall d, d ∈ body -> d ∈ digitChars

theorem isNumeral_cons {c : Char} {body : List Char} :
    IsNumeral (c :: body) <->
      (c ∈ Lexeme.decimalChars ∨ c = '%' ∨ c = '$') ∧ forall d, d ∈ body -> d ∈ digitChars := by
  constructor
  · intro h
    rcases h with ⟨_, _, heq, hparts⟩
    cases heq
    exact hparts
  · intro h
    exact ⟨c, body, rfl, h⟩

theorem isNumeral_of_all {c : Char} {body : List Char}
    (hfirst : c ∈ Lexeme.decimalChars ∨ c = '%' ∨ c = '$')
    (hbody : (body.all fun d => digitChars.contains d) = true) : IsNumeral (c :: body) :=
  isNumeral_cons.mpr
    ⟨hfirst, fun d hd => List.contains_iff_mem.mp (List.all_eq_true.mp hbody d hd)⟩

/--
How a numeral shows its base, which of its characters are the digits, and the failure at a
character that is no digit of the base.
-/
inductive Written : List Char -> Nat -> LexError.Kind -> List Char -> Prop where
  | binary {digits : List Char} : Written ('%' :: digits) 2 .invalidBinary digits
  | hex {digits : List Char} : Written ('$' :: digits) 16 .invalidHex digits
  | octal {digits : List Char} :
      digits ≠ [] -> Written ('0' :: digits) 8 .invalidOctal digits
  | zero : Written ['0'] 10 .invalidDecimal ['0']
  | decimal {c : Char} {digits : List Char} :
      c ∉ ['%', '$', '0'] -> Written (c :: digits) 10 .invalidDecimal (c :: digits)

section Written

variable {lexeme digits : List Char} {base : Nat} {invalid : LexError.Kind}

theorem exists_written (h : lexeme ≠ []) :
    exists base invalid digits, Written lexeme base invalid digits := by
  cases lexeme with
  | nil => exact (h rfl).elim
  | cons c body =>
      by_cases hmark : c ∈ ['%', '$', '0']
      · simp only [List.mem_cons, List.not_mem_nil, or_false] at hmark
        rcases hmark with rfl | rfl | rfl
        · exact ⟨_, _, _, .binary⟩
        · exact ⟨_, _, _, .hex⟩
        · cases body with
          | nil => exact ⟨_, _, _, .zero⟩
          | cons d body => exact ⟨_, _, _, .octal (List.cons_ne_nil d body)⟩
      · exact ⟨_, _, _, .decimal hmark⟩

/-- The scan finds the base that a numeral shows, and the digits that it shows. -/
theorem split_of_written (h : Written lexeme base invalid digits) :
    exists radix : Radix,
      split lexeme = (radix, digits) ∧ radix.base = base ∧ radix.invalid = invalid := by
  cases h with
  | binary => exact ⟨.binary, rfl, rfl, rfl⟩
  | hex => exact ⟨.hex, rfl, rfl, rfl⟩
  | octal hne =>
      cases digits with
      | nil => exact (hne rfl).elim
      | cons c digits => exact ⟨.octal, rfl, rfl, rfl⟩
  | zero => exact ⟨.decimal, rfl, rfl, rfl⟩
  | decimal hmark =>
      simp only [List.mem_cons, List.not_mem_nil, or_false, not_or] at hmark
      refine ⟨.decimal, ?_, rfl, rfl⟩
      unfold split
      split
      · next heq => exact (hmark.left (List.cons.inj heq).left).elim
      · next heq => exact (hmark.right.left (List.cons.inj heq).left).elim
      · next heq => exact (hmark.right.right (List.cons.inj heq).left).elim
      · rfl

theorem read_of_written (h : Written lexeme base invalid digits) :
    exists radix : Radix, radix.base = base ∧ radix.invalid = invalid ∧
      read lexeme =
        if digits = [] then .error .noDigits
        else (readFrom radix 0 digits).map Nat.toUInt16 := by
  rcases split_of_written h with ⟨radix, hsplit, hbase, hinvalid⟩
  refine ⟨radix, hbase, hinvalid, ?_⟩
  unfold read
  rw [hsplit]
  cases digits with
  | nil => rfl
  | cons c digits => rfl

theorem digits_eq_nil_iff (h : Written lexeme base invalid digits) :
    digits = [] <-> lexeme = ['%'] ∨ lexeme = ['$'] := by
  cases h with
  | binary => simp
  | hex => simp
  | octal hne => simp [hne]
  | zero => simp
  | decimal hmark =>
      simp only [List.mem_cons, List.not_mem_nil, or_false, not_or] at hmark
      simp [hmark.left, hmark.right.left]

theorem faultOf_mem (h : Written lexeme base invalid digits) (c : Char) :
    faultOf base invalid c ∈
      [.tooLarge, .invalidBinary, .invalidHex, .invalidOctal, .invalidDecimal] := by
  unfold faultOf
  split
  · decide
  · cases h <;> decide

theorem read_eq_ok_iff (h : Written lexeme base invalid digits) {v : UInt16} :
    read lexeme = .ok v <->
      digits ≠ [] ∧ (forall c, c ∈ digits -> IsDigit base c) ∧
        value base digits ≤ 65535 ∧ v.toNat = value base digits := by
  rcases read_of_written h with ⟨radix, rfl, rfl, hread⟩
  rw [hread]
  split
  · next hnil =>
      constructor
      · intro hok
        cases hok
      · intro hok
        exact (hok.left hnil).elim
  · next hne =>
      simp only [map_eq_ok_iff, readFrom_eq_ok_iff]
      constructor
      · intro hok
        rcases hok with ⟨n, ⟨hdigits, hle, rfl⟩, rfl⟩
        exact ⟨hne, hdigits, hle, UInt16.toNat_ofNat_of_lt (Nat.lt_succ_of_le hle)⟩
      · intro hok
        rcases hok with ⟨_, hdigits, hle, hv⟩
        rw [<- hv] at hle
        exact ⟨v.toNat, ⟨hdigits, hle, hv⟩, UInt16.ofNat_toNat⟩

theorem read_eq_error_iff (h : Written lexeme base invalid digits) {kind : LexError.Kind} :
    read lexeme = .error kind <->
      (digits = [] ∧ kind = .noDigits) ∨
        exists i c, FirstSpoils base digits i ∧ digits[i]? = some c ∧
          kind = faultOf base invalid c := by
  rcases read_of_written h with ⟨radix, rfl, rfl, hread⟩
  rw [hread]
  split
  · next hnil =>
      constructor
      · intro herror
        cases herror
        exact Or.inl ⟨hnil, rfl⟩
      · intro herror
        rcases herror with ⟨_, rfl⟩ | ⟨i, c, _, hc, _⟩
        · rfl
        · rw [hnil] at hc
          cases hc
  · next hne =>
      rw [map_eq_error_iff, readFrom_eq_error_iff]
      constructor
      · intro herror
        exact Or.inr herror
      · intro herror
        exact herror.resolve_left fun hnil => hne hnil.left

theorem isDigit_of_hex (hlexeme : IsNumeral ('$' :: digits)) {c : Char} (hc : c ∈ digits) :
    IsDigit 16 c :=
  List.idxOf_lt_length_of_mem ((isNumeral_cons.mp hlexeme).right c hc)

/-- A digit of hexadecimal numerals is never wrong, and every failure has its reason. -/
theorem kind_of_read (hlexeme : IsNumeral lexeme) (h : Written lexeme base invalid digits)
    {kind : LexError.Kind} (hread : read lexeme = .error kind) :
    kind ≠ .invalidHex ∧ kind ≠ .unreadableNumber := by
  rcases (read_eq_error_iff h).mp hread with ⟨_, rfl⟩ | ⟨i, c, _, hc, rfl⟩
  · exact ⟨by decide, by decide⟩
  · have hmem : c ∈ digits := List.mem_of_getElem? hc
    cases h with
    | hex =>
        rw [faultOf, if_pos (isDigit_of_hex hlexeme hmem)]
        exact ⟨by decide, by decide⟩
    | _ =>
        unfold faultOf
        split <;> exact ⟨by decide, by decide⟩

end Written

/--
A numeral is read as the value of its digits, or it fails for what is wrong with the first digit
that cannot be taken up.
-/
theorem read_is_value_or_first_fault {lexeme : List Char} (hlexeme : IsNumeral lexeme) :
    exists base invalid digits, Written lexeme base invalid digits ∧
      (forall v : UInt16, read lexeme = .ok v <->
        digits ≠ [] ∧ (forall c, c ∈ digits -> IsDigit base c) ∧
          value base digits ≤ 65535 ∧ v.toNat = value base digits) ∧
      (read lexeme = .error .noDigits <-> lexeme = ['%'] ∨ lexeme = ['$']) ∧
      (forall kind, kind ≠ .noDigits ->
        (read lexeme = .error kind <->
          exists i c, FirstSpoils base digits i ∧ digits[i]? = some c ∧
            kind = if IsDigit base c then .tooLarge else invalid)) ∧
      read lexeme ≠ .error .invalidHex ∧ read lexeme ≠ .error .unreadableNumber := by
  have hne : lexeme ≠ [] := by
    rcases hlexeme with ⟨c, body, rfl, _⟩
    exact List.cons_ne_nil c body
  rcases exists_written hne with ⟨base, invalid, digits, h⟩
  refine ⟨base, invalid, digits, h, fun v => read_eq_ok_iff h, ?_, ?_, ?_, ?_⟩
  · rw [read_eq_error_iff h, <- digits_eq_nil_iff h]
    constructor
    · intro herror
      rcases herror with ⟨hnil, _⟩ | ⟨i, c, _, _, hkind⟩
      · exact hnil
      · have hfault := faultOf_mem h c
        rw [<- hkind] at hfault
        exact absurd hfault (by decide)
    · intro hnil
      exact Or.inl ⟨hnil, rfl⟩
  · intro kind hkind
    rw [read_eq_error_iff h]
    constructor
    · intro herror
      exact herror.resolve_left fun hnil => hkind hnil.right
    · intro herror
      exact Or.inr herror
  · intro hread
    exact (kind_of_read hlexeme h hread).left rfl
  · intro hread
    exact (kind_of_read hlexeme h hread).right rfl

/--
The same digits have another value in each base.  A wrong digit at the end of an octal numeral
is not reached if the value passes sixteen bits before.
-/
theorem elevens_and_octalFaults :
    read "%11".toList = .ok 3 ∧ read "011".toList = .ok 9 ∧
      read "0177778".toList = .error .invalidOctal ∧
      read "02000008".toList = .error .tooLarge := by
  have hbinary : IsNumeral "%11".toList := isNumeral_of_all (by decide) (by decide)
  have hoctal : IsNumeral "011".toList := isNumeral_of_all (by decide) (by decide)
  have hwrong : IsNumeral "0177778".toList := isNumeral_of_all (by decide) (by decide)
  have hlarge : IsNumeral "02000008".toList := isNumeral_of_all (by decide) (by decide)
  refine ⟨?_, ?_, ?_, ?_⟩
  · rcases read_is_value_or_first_fault hbinary with ⟨_, _, _, h, hok, _⟩
    cases h with
    | binary =>
        have hdigits : forall c, c ∈ ['1', '1'] -> IsDigit 2 c :=
          List.forall_mem_cons.mpr ⟨by decide, List.forall_mem_singleton.mpr (by decide)⟩
        exact (hok 3).mpr ⟨by decide, hdigits, by decide, by decide⟩
    | decimal hmark => exact (hmark (by decide)).elim
  · rcases read_is_value_or_first_fault hoctal with ⟨_, _, _, h, hok, _⟩
    cases h with
    | octal _ =>
        have hdigits : forall c, c ∈ ['1', '1'] -> IsDigit 8 c :=
          List.forall_mem_cons.mpr ⟨by decide, List.forall_mem_singleton.mpr (by decide)⟩
        exact (hok 9).mpr ⟨by decide, hdigits, by decide, by decide⟩
    | decimal hmark => exact (hmark (by decide)).elim
  · rcases read_is_value_or_first_fault hwrong with ⟨_, _, _, h, _, _, hfault, _⟩
    refine (hfault _ (by decide)).mpr ?_
    cases h with
    | octal _ => exact ⟨5, '8', ⟨by decide, by decide⟩, rfl, rfl⟩
    | decimal hmark => exact (hmark (by decide)).elim
  · rcases read_is_value_or_first_fault hlarge with ⟨_, _, _, h, _, _, hfault, _⟩
    refine (hfault _ (by decide)).mpr ?_
    cases h with
    | octal _ => exact ⟨5, '0', ⟨by decide, by decide⟩, rfl, rfl⟩
    | decimal hmark => exact (hmark (by decide)).elim

end Numeral
end Asm65
