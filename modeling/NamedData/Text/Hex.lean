/-!
Bytes written in hexadecimal. Reading takes digits of either case; writing uses lower case, except
in percent escapes, where the digits are upper case.
-/

namespace NamedData.Hex

def value? (c : Char) : Option Nat :=
  if '0' ≤ c ∧ c ≤ '9' then some (c.toNat - 48)
  else if 'a' ≤ c ∧ c ≤ 'f' then some (c.toNat - 87)
  else if 'A' ≤ c ∧ c ≤ 'F' then some (c.toNat - 55)
  else none

def digit (n : Nat) : Char :=
  if n < 10 then Char.ofNat (48 + n) else Char.ofNat (87 + n)

def upperDigit (n : Nat) : Char :=
  if n < 10 then Char.ofNat (48 + n) else Char.ofNat (55 + n)

/-- The byte with the two given hexadecimal digits, if both are digits. -/
def byte? (high low : Char) : Option UInt8 :=
  match value? high, value? low with
  | some h, some l => some (UInt8.ofNat (16 * h + l))
  | _, _ => none

/-- Two lower-case digits a byte. -/
def encode (bytes : List UInt8) : List Char :=
  bytes.flatMap fun b => [digit (b.toNat / 16), digit (b.toNat % 16)]

/-- Reads two digits a byte and refuses an odd digit or any other character. -/
def decode : List Char → Option (List UInt8)
  | [] => some []
  | [_] => none
  | high :: low :: rest =>
    match byte? high low, decode rest with
    | some b, some bytes => some (b :: bytes)
    | _, _ => none

def text (bytes : List UInt8) : String :=
  String.ofList (encode bytes)

/-- A percent escape: the sign and two upper-case digits. -/
def escape (b : UInt8) : List Char :=
  ['%', upperDigit (b.toNat / 16), upperDigit (b.toNat % 16)]

theorem value?_digit (n : Nat) (h : n < 16) : value? (digit n) = some n := by
  have : ∀ m : Fin 16, value? (digit m) = some m.val := by decide
  exact this ⟨n, h⟩

theorem value?_upperDigit (n : Nat) (h : n < 16) : value? (upperDigit n) = some n := by
  have : ∀ m : Fin 16, value? (upperDigit m) = some m.val := by decide
  exact this ⟨n, h⟩

theorem byte?_digits (b : UInt8) :
    byte? (digit (b.toNat / 16)) (digit (b.toNat % 16)) = some b := by
  have hb := b.toNat_lt
  rw [byte?, value?_digit _ (by omega), value?_digit _ (by omega)]
  simp [Nat.div_add_mod]

theorem byte?_upperDigits (b : UInt8) :
    byte? (upperDigit (b.toNat / 16)) (upperDigit (b.toNat % 16)) = some b := by
  have hb := b.toNat_lt
  rw [byte?, value?_upperDigit _ (by omega), value?_upperDigit _ (by omega)]
  simp [Nat.div_add_mod]

/-- Written bytes read back. -/
theorem decode_encode (bytes : List UInt8) : decode (encode bytes) = some bytes := by
  induction bytes with
  | nil => rfl
  | cons b bytes ih =>
    simp only [encode, List.flatMap_cons, List.cons_append, List.nil_append] at ih ⊢
    simp [decode, byte?_digits, ih]

end NamedData.Hex
