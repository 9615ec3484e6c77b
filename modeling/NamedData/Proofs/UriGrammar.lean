import NamedData.Proofs.UriRoundTrip

/-!
Which texts are read as a name, and which part of the others is to blame. A part is well formed if
it is a digest keyword with sixty-four hexadecimal digits after it, or begins with neither keyword
and has two hexadecimal digits after every percent sign. What a part stands for is told over its
bytes: an escape is three bytes for one, and every other byte stands for itself. That the reader
goes over characters and not over bytes makes no difference, because no byte of a longer character
is a percent sign or a digit.
-/

namespace NamedData

/-! ### One result after another, or the first error -/

section Sequence

variable {ε α β : Type} {f : α → Except ε β}

theorem mapM_eq_ok_iff {l : List α} {r : List β} :
    l.mapM f = .ok r ↔ List.Forall₂ (fun a b => f a = .ok b) l r := by
  induction l generalizing r with
  | nil =>
    rw [List.forall₂_nil_left_iff]
    exact ⟨fun h => (Except.ok.inj h).symm, fun h => h ▸ rfl⟩
  | cons a l ih =>
    rw [List.mapM_cons, bind_eq_ok, List.forall₂_cons_left_iff]
    constructor
    · rintro ⟨b, hb, hrest⟩
      obtain ⟨rest, hl, hr⟩ := bind_eq_ok.mp hrest
      exact ⟨b, rest, hb, ih.mp hl, (Except.ok.inj hr).symm⟩
    · rintro ⟨b, rest, hb, hl, rfl⟩
      exact ⟨b, hb, bind_eq_ok.mpr ⟨rest, ih.mpr hl, rfl⟩⟩

theorem bind_eq_error {x : Except ε α} {next : α → Except ε β} {err : ε} :
    x >>= next = .error err ↔ x = .error err ∨ ∃ a, x = .ok a ∧ next a = .error err := by
  cases x with
  | error fault => simp [bind, Except.bind]
  | ok a => simp [bind, Except.bind]

/-- There is a result if each member has one. -/
theorem exists_mapM_iff {l : List α} :
    (∃ r, l.mapM f = .ok r) ↔ ∀ a ∈ l, ∃ b, f a = .ok b := by
  constructor
  · rintro ⟨r, hr⟩
    have hboth := (mapM_eq_ok_iff.mp hr).imp (S := fun a b => (∃ b, f a = .ok b) ∧ f a = .ok b)
      fun a b hb => ⟨⟨b, hb⟩, hb⟩
    exact ((List.forall₂_and_left l r).mp hboth).1
  · intro hall
    induction l with
    | nil => exact ⟨[], rfl⟩
    | cons a l ih =>
      obtain ⟨⟨b, hb⟩, hl⟩ := List.forall_mem_cons.mp hall
      obtain ⟨rest, hrest⟩ := ih hl
      exact ⟨b :: rest, mapM_eq_ok_iff.mpr (.cons hb (mapM_eq_ok_iff.mp hrest))⟩

/-- The error is that of the first member that has one. -/
theorem mapM_eq_error_iff {l : List α} {err : ε} :
    l.mapM f = .error err ↔ ∃ earlier a later, l = earlier ++ a :: later ∧
      (∀ e ∈ earlier, ∃ b, f e = .ok b) ∧ f a = .error err := by
  induction l with
  | nil =>
    constructor
    · intro h
      cases h
    · rintro ⟨earlier, a, later, hl, _⟩
      exact absurd hl (by simp)
  | cons a l ih =>
    have hrest (b : β) : ((l.mapM f >>= fun rest => pure (b :: rest)) = .error err) ↔
        l.mapM f = .error err := by
      rw [bind_eq_error]
      exact or_iff_left fun ⟨_, _, h⟩ => nomatch h
    rw [List.mapM_cons, bind_eq_error]
    simp only [hrest, ih]
    constructor
    · rintro (ha | ⟨b, hb, earlier, c, later, rfl, hearlier, hc⟩)
      · exact ⟨[], a, l, rfl, List.forall_mem_nil _, ha⟩
      · exact ⟨a :: earlier, c, later, rfl, List.forall_mem_cons.mpr ⟨⟨b, hb⟩, hearlier⟩, hc⟩
    · rintro ⟨earlier, c, later, hl, hearlier, hc⟩
      cases earlier with
      | nil =>
        obtain ⟨rfl, rfl⟩ := List.cons.inj hl
        exact .inl hc
      | cons e earlier =>
        obtain ⟨rfl, rfl⟩ := List.cons.inj hl
        obtain ⟨⟨b, hb⟩, hothers⟩ := List.forall_mem_cons.mp hearlier
        exact .inr ⟨b, hb, earlier, c, later, rfl, hothers, hc⟩

end Sequence

/-! ### Hexadecimal digits -/

namespace Hex

/-- The character is the hexadecimal digit, of either case, with the given value. -/
def IsDigit (c : Char) (v : Nat) : Prop :=
  "0123456789abcdef".toList[v]? = some c ∨ "0123456789ABCDEF".toList[v]? = some c

variable {c high low : Char} {v : Nat} {b : UInt8}

theorem lt_of_isDigit (h : IsDigit c v) : v < 16 := by
  rcases h with h | h
  · exact (List.getElem?_eq_some_iff.mp h).1
  · exact (List.getElem?_eq_some_iff.mp h).1

theorem isDigit_iff : IsDigit c v ↔ v < 16 ∧ (c = digit v ∨ c = upperDigit v) := by
  have hall : ∀ m : Fin 16, "0123456789abcdef".toList[m.val]? = some (digit m) ∧
      "0123456789ABCDEF".toList[m.val]? = some (upperDigit m) := by decide
  constructor
  · intro h
    have hlt := lt_of_isDigit h
    obtain ⟨hlower, hupper⟩ := hall ⟨v, hlt⟩
    refine ⟨hlt, h.imp (fun h => ?_) (fun h => ?_)⟩
    · exact Option.some.inj (h.symm.trans hlower)
    · exact Option.some.inj (h.symm.trans hupper)
  · rintro ⟨hlt, rfl | rfl⟩
    · exact .inl (hall ⟨v, hlt⟩).1
    · exact .inr (hall ⟨v, hlt⟩).2

theorem lt_of_value?_eq_some (h : value? c = some v) : c.toNat < 128 := by
  have hupto {last : Char} (hc : c ≤ last) (hlast : last.toNat < 128) : c.toNat < 128 :=
    Nat.lt_of_le_of_lt hc hlast
  unfold value? at h
  split at h
  case isTrue hbetween => exact hupto hbetween.2 (by decide)
  · split at h
    case isTrue hbetween => exact hupto hbetween.2 (by decide)
    · split at h
      case isTrue hbetween => exact hupto hbetween.2 (by decide)
      case isFalse => cases h

theorem value?_eq_some_iff : value? c = some v ↔ IsDigit c v := by
  rw [isDigit_iff]
  constructor
  · intro h
    have hall : ∀ n : Fin 128, ∀ w ∈ value? (Char.ofNat n),
        w < 16 ∧ (Char.ofNat n = digit w ∨ Char.ofNat n = upperDigit w) := by decide +kernel
    have hc := hall ⟨c.toNat, lt_of_value?_eq_some h⟩ v
    rw [Char.ofNat_toNat] at hc
    exact hc h
  · rintro ⟨hlt, rfl | rfl⟩
    · exact value?_digit v hlt
    · exact value?_upperDigit v hlt

/-- Digits are single bytes, and none is the percent sign. -/
theorem isDigit_plain (h : IsDigit c v) : c ≠ '%' ∧ c.toNat < 128 := by
  have hall : ∀ m : Fin 16, (digit m ≠ '%' ∧ (digit m).toNat < 128) ∧
      (upperDigit m ≠ '%' ∧ (upperDigit m).toNat < 128) := by decide
  obtain ⟨hlt, rfl | rfl⟩ := isDigit_iff.mp h
  · exact (hall ⟨v, hlt⟩).1
  · exact (hall ⟨v, hlt⟩).2

/-- Two digits are the high and the low half of their byte. -/
theorem byte?_eq_some_iff :
    byte? high low = some b ↔ IsDigit high (b.toNat / 16) ∧ IsDigit low (b.toNat % 16) := by
  rw [← value?_eq_some_iff, ← value?_eq_some_iff]
  constructor
  · intro h
    unfold byte? at h
    split at h
    case h_1 hv lv hhigh hlow =>
      have hh := lt_of_isDigit (value?_eq_some_iff.mp hhigh)
      have hl := lt_of_isDigit (value?_eq_some_iff.mp hlow)
      obtain rfl := Option.some.inj h
      have hnat : (UInt8.ofNat (16 * hv + lv)).toNat = 16 * hv + lv := by
        rw [UInt8.toNat_ofNat']
        omega
      rw [hnat]
      exact ⟨by rw [hhigh]; congr 1; omega, by rw [hlow]; congr 1; omega⟩
    case h_2 => cases h
  · rintro ⟨hhigh, hlow⟩
    simp only [byte?, hhigh, hlow, Nat.div_add_mod, UInt8.ofNat_toNat]

theorem byte?_isSome_iff :
    (∃ b, byte? high low = some b) ↔ (∃ v, IsDigit high v) ∧ ∃ v, IsDigit low v := by
  constructor
  · rintro ⟨b, hb⟩
    obtain ⟨hhigh, hlow⟩ := byte?_eq_some_iff.mp hb
    exact ⟨⟨_, hhigh⟩, ⟨_, hlow⟩⟩
  · rintro ⟨⟨h, hhigh⟩, ⟨l, hlow⟩⟩
    simp only [byte?, value?_eq_some_iff.mpr hhigh, value?_eq_some_iff.mpr hlow]
    exact ⟨_, rfl⟩

/-- The digits spell the bytes, two for each, the high one first. -/
inductive Spells : List Char → List UInt8 → Prop where
  | nil : Spells [] []
  | cons {high low : Char} {b : UInt8} {digits : List Char} {bytes : List UInt8}
      (hhigh : IsDigit high (b.toNat / 16)) (hlow : IsDigit low (b.toNat % 16))
      (hrest : Spells digits bytes) : Spells (high :: low :: digits) (b :: bytes)

theorem decode_cons (high low : Char) (rest : List Char) : decode (high :: low :: rest) =
    (byte? high low).bind fun b => (decode rest).map (b :: ·) := by
  rw [decode]
  cases byte? high low <;> cases decode rest <;> rfl

theorem decode_eq_some_iff {digits : List Char} {bytes : List UInt8} :
    decode digits = some bytes ↔ Spells digits bytes := by
  constructor
  · intro h
    fun_induction decode digits generalizing bytes with
    | case1 =>
      obtain rfl := Option.some.inj h
      exact .nil
    | case2 => cases h
    | case3 high low rest b more hmore hbyte ih =>
      obtain rfl := Option.some.inj h
      obtain ⟨hhigh, hlow⟩ := byte?_eq_some_iff.mp hbyte
      exact .cons hhigh hlow (ih hmore)
    | case4 => cases h
  · intro h
    induction h with
    | nil => rfl
    | cons hhigh hlow _ ih =>
      rw [decode_cons, byte?_eq_some_iff.mpr ⟨hhigh, hlow⟩, ih]
      rfl

theorem Spells.length_eq {digits : List Char} {bytes : List UInt8} (h : Spells digits bytes) :
    digits.length = 2 * bytes.length := by
  induction h with
  | nil => rfl
  | cons _ _ _ ih =>
    simp only [List.length_cons, ih]
    omega

theorem Spells.isDigit_of_mem {digits : List Char} {bytes : List UInt8} (h : Spells digits bytes) :
    ∀ c ∈ digits, ∃ v, IsDigit c v := by
  induction h with
  | nil => exact List.forall_mem_nil _
  | cons hhigh hlow _ ih =>
    exact List.forall_mem_cons.mpr ⟨⟨_, hhigh⟩, List.forall_mem_cons.mpr ⟨⟨_, hlow⟩, ih⟩⟩

/-- Digits that are even in number spell some bytes. -/
theorem exists_spells {count : Nat} {digits : List Char} (hlength : digits.length = 2 * count)
    (hdigits : ∀ c ∈ digits, ∃ v, IsDigit c v) : ∃ bytes, Spells digits bytes := by
  induction count generalizing digits with
  | zero =>
    obtain rfl := List.eq_nil_of_length_eq_zero hlength
    exact ⟨[], .nil⟩
  | succ count ih =>
    match digits, hlength with
    | high :: low :: rest, hlength =>
      obtain ⟨hhigh, hothers⟩ := List.forall_mem_cons.mp hdigits
      obtain ⟨hlow, hrest⟩ := List.forall_mem_cons.mp hothers
      simp only [List.length_cons] at hlength
      obtain ⟨bytes, hbytes⟩ := ih (by omega) hrest
      obtain ⟨b, hb⟩ := byte?_isSome_iff.mpr ⟨hhigh, hlow⟩
      obtain ⟨hh, hl⟩ := byte?_eq_some_iff.mp hb
      exact ⟨b :: bytes, .cons hh hl hbytes⟩

end Hex

/-! ### Escapes -/

namespace Uri

/-- The bytes of a text. -/
def utf8 (text : List Char) : List UInt8 :=
  text.flatMap String.utf8EncodeChar

/-- What a text of bytes stands for: thirty-seven, the percent sign, and the two digits after it
stand for the byte with these digits, and every other byte for itself. -/
inductive Unescapes : List UInt8 → List UInt8 → Prop where
  | nil : Unescapes [] []
  | plain {b : UInt8} {text bytes : List UInt8} (hb : b ≠ 37) (hrest : Unescapes text bytes) :
      Unescapes (b :: text) (b :: bytes)
  | escape {high low b : UInt8} {text bytes : List UInt8}
      (hhigh : Hex.IsDigit (Char.ofNat high.toNat) (b.toNat / 16))
      (hlow : Hex.IsDigit (Char.ofNat low.toNat) (b.toNat % 16)) (hrest : Unescapes text bytes) :
      Unescapes (37 :: high :: low :: text) (b :: bytes)

/-- Every percent sign is followed by two hexadecimal digits. -/
def ProperlyEscaped (part : List Char) : Prop :=
  ∀ before after, part = before ++ '%' :: after → ∃ high low rest,
    after = high :: low :: rest ∧ (∃ v, Hex.IsDigit high v) ∧ ∃ v, Hex.IsDigit low v

variable {c : Char} {part after : List Char} {bytes : List UInt8}

theorem utf8_cons (c : Char) (part : List Char) :
    utf8 (c :: part) = String.utf8EncodeChar c ++ utf8 part :=
  List.flatMap_cons

theorem utf8EncodeChar_ascii (h : c.toNat < 128) :
    String.utf8EncodeChar c = [UInt8.ofNat c.toNat] := by
  have hval : c.val.toNat ≤ 127 := Nat.le_of_lt_succ h
  simp only [String.utf8EncodeChar, if_pos hval]
  rfl

/-- No byte of a longer character is one of a short character. -/
theorem le_of_mem_utf8EncodeChar {b : UInt8} (hc : 128 ≤ c.toNat)
    (hb : b ∈ String.utf8EncodeChar c) : 128 ≤ b.toNat := by
  have hval : ¬ c.val.toNat ≤ 127 := Nat.not_le_of_lt hc
  simp only [String.utf8EncodeChar, if_neg hval] at hb
  split at hb
  · simp only [List.mem_cons, List.not_mem_nil, or_false] at hb
    rcases hb with rfl | rfl <;> simp only [UInt8.toNat_ofNat'] <;> omega
  · split at hb
    · simp only [List.mem_cons, List.not_mem_nil, or_false] at hb
      rcases hb with rfl | rfl | rfl <;> simp only [UInt8.toNat_ofNat'] <;> omega
    · simp only [List.mem_cons, List.not_mem_nil, or_false] at hb
      rcases hb with rfl | rfl | rfl | rfl <;> simp only [UInt8.toNat_ofNat'] <;> omega

theorem toNat_of_ascii (h : c.toNat < 128) : (UInt8.ofNat c.toNat).toNat = c.toNat := by
  rw [UInt8.toNat_ofNat']
  omega

/-- A low first byte is the whole first character. -/
theorem utf8_eq_cons {b : UInt8} {text : List UInt8} (hb : b.toNat < 128)
    (h : utf8 part = b :: text) : ∃ rest, part = Char.ofNat b.toNat :: rest ∧ text = utf8 rest := by
  cases part with
  | nil => cases h
  | cons c rest =>
    rw [utf8_cons] at h
    have hmem : b ∈ String.utf8EncodeChar c := by
      have hne := String.utf8EncodeChar_ne_nil (c := c)
      obtain ⟨first, more, hfirst⟩ := List.exists_cons_of_ne_nil hne
      rw [hfirst] at h ⊢
      exact (List.cons.inj h).1 ▸ List.mem_cons_self
    have hc : c.toNat < 128 :=
      Nat.lt_of_not_le fun hc => absurd (le_of_mem_utf8EncodeChar hc hmem) (Nat.not_le_of_lt hb)
    rw [utf8EncodeChar_ascii hc] at h
    obtain ⟨rfl, rfl⟩ := List.cons.inj h
    rw [toNat_of_ascii hc, Char.ofNat_toNat]
    exact ⟨rest, rfl, rfl⟩

theorem percent_notMem_utf8EncodeChar (h : c ≠ '%') : ∀ b ∈ String.utf8EncodeChar c, b ≠ 37 := by
  rintro b hb rfl
  have hc : c.toNat < 128 :=
    Nat.lt_of_not_le fun hc => absurd (le_of_mem_utf8EncodeChar hc hb) (by decide)
  rw [utf8EncodeChar_ascii hc, List.mem_singleton] at hb
  have hnat : (37 : UInt8).toNat = c.toNat := hb ▸ toNat_of_ascii hc
  have hpercent : c = Char.ofNat 37 := by rw [← Char.ofNat_toNat c, ← hnat]; rfl
  exact h hpercent

/-! Three readings of a text, by bytes, by characters and by percent signs, go the same way: they
pass over what is no percent sign, and stop at a percent sign without two digits. -/

theorem unescapes_append {front text : List UInt8} (h : ∀ b ∈ front, b ≠ 37) :
    Unescapes (front ++ text) bytes ↔ ∃ rest, bytes = front ++ rest ∧ Unescapes text rest := by
  induction front generalizing bytes with
  | nil => exact ⟨fun hrest => ⟨bytes, rfl, hrest⟩, fun ⟨_, hbytes, hrest⟩ => hbytes ▸ hrest⟩
  | cons b front ih =>
    obtain ⟨hb, hfront⟩ := List.forall_mem_cons.mp h
    constructor
    · intro hread
      generalize htext : b :: front ++ text = whole at hread
      cases hread with
      | nil => cases htext
      | plain _ hread =>
        obtain ⟨rfl, rfl⟩ := List.cons.inj htext
        obtain ⟨rest, rfl, hrest⟩ := (ih hfront).mp hread
        exact ⟨rest, rfl, hrest⟩
      | escape => exact absurd (List.cons.inj htext).1 hb
    · rintro ⟨rest, rfl, hrest⟩
      exact .plain hb ((ih hfront).mpr ⟨rest, rfl, hrest⟩)

theorem unescapes_cons (h : c ≠ '%') : Unescapes (utf8 (c :: part)) bytes ↔
    ∃ rest, bytes = String.utf8EncodeChar c ++ rest ∧ Unescapes (utf8 part) rest := by
  rw [utf8_cons, unescapes_append (percent_notMem_utf8EncodeChar h)]

theorem unescapes_percent : Unescapes (utf8 ('%' :: after)) bytes ↔ ∃ high low rest b more,
    after = high :: low :: rest ∧ Hex.byte? high low = some b ∧ bytes = b :: more ∧
      Unescapes (utf8 rest) more := by
  rw [utf8_cons]
  constructor
  · intro h
    generalize htext : utf8 after = text at h
    cases h with
    | plain hb => exact absurd rfl hb
    | @escape high low b text more hhigh hlow hrest =>
      have hascii {digit : UInt8} {v : Nat} (hdigit : Hex.IsDigit (Char.ofNat digit.toNat) v) :
          digit.toNat < 128 := by
        have hall : ∀ n : Fin 256, (Char.ofNat n).toNat < 128 → n.val < 128 := by decide +kernel
        exact hall ⟨digit.toNat, digit.toNat_lt⟩ (Hex.isDigit_plain hdigit).2
      obtain ⟨others, rfl, hothers⟩ := utf8_eq_cons (hascii hhigh) htext
      obtain ⟨rest, rfl, rfl⟩ := utf8_eq_cons (hascii hlow) hothers.symm
      exact ⟨_, _, rest, b, more, rfl, Hex.byte?_eq_some_iff.mpr ⟨hhigh, hlow⟩, rfl, hrest⟩
  · rintro ⟨high, low, rest, b, more, rfl, hbyte, rfl, hrest⟩
    obtain ⟨hhigh, hlow⟩ := Hex.byte?_eq_some_iff.mp hbyte
    have hhascii := (Hex.isDigit_plain hhigh).2
    have hlascii := (Hex.isDigit_plain hlow).2
    rw [utf8_cons, utf8_cons, utf8EncodeChar_ascii hhascii, utf8EncodeChar_ascii hlascii]
    refine .escape ?_ ?_ hrest
    · rwa [toNat_of_ascii hhascii, Char.ofNat_toNat]
    · rwa [toNat_of_ascii hlascii, Char.ofNat_toNat]

theorem percentDecode_percent : percentDecode ('%' :: after) = some bytes ↔ ∃ high low rest b more,
    after = high :: low :: rest ∧ Hex.byte? high low = some b ∧ bytes = b :: more ∧
      percentDecode rest = some more := by
  match after with
  | [] => exact ⟨nofun, by rintro ⟨_, _, _, _, _, h, _⟩; cases h⟩
  | [_] => exact ⟨nofun, by rintro ⟨_, _, _, _, _, h, _⟩; cases h⟩
  | high :: low :: rest =>
    constructor
    · intro h
      rw [percentDecode] at h
      split at h
      case h_1 b more hbyte hmore =>
        obtain rfl := Option.some.inj h
        exact ⟨high, low, rest, b, more, rfl, hbyte, rfl, hmore⟩
      case h_2 => cases h
    · rintro ⟨_, _, _, b, more, hafter, hbyte, rfl, hmore⟩
      cases hafter
      simp only [percentDecode, hbyte, hmore]

theorem properlyEscaped_nil : ProperlyEscaped [] := fun before _ h => by
  cases before <;> cases h

theorem properlyEscaped_cons (h : c ≠ '%') :
    ProperlyEscaped (c :: part) ↔ ProperlyEscaped part := by
  constructor
  · intro hpart before after hsplit
    exact hpart (c :: before) after (congrArg (c :: ·) hsplit)
  · intro hpart before after hsplit
    cases before with
    | nil => exact absurd (List.cons.inj hsplit).1 h
    | cons _ before => exact hpart before after (List.cons.inj hsplit).2

theorem properlyEscaped_percent : ProperlyEscaped ('%' :: after) ↔ ∃ high low rest,
    after = high :: low :: rest ∧ (∃ b, Hex.byte? high low = some b) ∧ ProperlyEscaped rest := by
  constructor
  · intro h
    obtain ⟨high, low, rest, rfl, hdigits⟩ := h [] after rfl
    refine ⟨high, low, rest, rfl, Hex.byte?_isSome_iff.mpr hdigits, fun before after hsplit => ?_⟩
    exact h ('%' :: high :: low :: before) after (by rw [hsplit]; rfl)
  · rintro ⟨high, low, rest, rfl, hbyte, hrest⟩
    obtain ⟨⟨_, hhigh⟩, ⟨_, hlow⟩⟩ := Hex.byte?_isSome_iff.mp hbyte
    have hothers : ProperlyEscaped (high :: low :: rest) :=
      (properlyEscaped_cons (Hex.isDigit_plain hhigh).1).mpr
        ((properlyEscaped_cons (Hex.isDigit_plain hlow).1).mpr hrest)
    intro before after hsplit
    cases before with
    | nil =>
      obtain rfl := (List.cons.inj hsplit).2
      exact ⟨high, low, rest, rfl, ⟨_, hhigh⟩, ⟨_, hlow⟩⟩
    | cons _ before => exact hothers before after (List.cons.inj hsplit).2

/-- The texts are read one character, or one escape, after another. -/
theorem escape_induction {P : List Char → Prop} (hnil : P [])
    (hplain : ∀ c part, c ≠ '%' → P part → P (c :: part))
    (hpercent : ∀ after, (∀ high low rest, after = high :: low :: rest → P rest) → P ('%' :: after))
    (part : List Char) : P part := by
  induction hlength : part.length using Nat.strongRecOn generalizing part with
  | ind length ih =>
    cases part with
    | nil => exact hnil
    | cons c part =>
      rw [List.length_cons] at hlength
      by_cases hc : c = '%'
      · subst hc
        refine hpercent part fun high low rest hpart => ih rest.length ?_ rest rfl
        rw [hpart] at hlength
        simp only [List.length_cons] at hlength
        omega
      · exact hplain c part hc (ih part.length (by omega) part rfl)

/-- Characters are decoded to what their bytes stand for. -/
theorem percentDecode_eq_some_iff :
    percentDecode part = some bytes ↔ Unescapes (utf8 part) bytes := by
  induction part using escape_induction generalizing bytes with
  | hnil =>
    constructor
    · intro h
      obtain rfl := Option.some.inj h
      exact .nil
    · intro h
      cases h
      rfl
  | hplain c part hc ih =>
    rw [percentDecode_cons hc, Option.map_eq_some_iff, unescapes_cons hc]
    constructor
    · rintro ⟨rest, hrest, rfl⟩
      exact ⟨rest, rfl, ih.mp hrest⟩
    · rintro ⟨rest, rfl, hrest⟩
      exact ⟨rest, ih.mpr hrest, rfl⟩
  | hpercent after ih =>
    rw [percentDecode_percent, unescapes_percent]
    constructor
    · rintro ⟨high, low, rest, b, more, hafter, hbyte, hbytes, hmore⟩
      exact ⟨high, low, rest, b, more, hafter, hbyte, hbytes, (ih high low rest hafter).mp hmore⟩
    · rintro ⟨high, low, rest, b, more, hafter, hbyte, hbytes, hmore⟩
      exact ⟨high, low, rest, b, more, hafter, hbyte, hbytes, (ih high low rest hafter).mpr hmore⟩

theorem exists_percentDecode_iff :
    (∃ bytes, percentDecode part = some bytes) ↔ ProperlyEscaped part := by
  induction part using escape_induction with
  | hnil => exact ⟨fun _ => properlyEscaped_nil, fun _ => ⟨[], rfl⟩⟩
  | hplain c part hc ih =>
    rw [properlyEscaped_cons hc, ← ih, percentDecode_cons hc]
    constructor
    · rintro ⟨bytes, h⟩
      obtain ⟨rest, hrest, _⟩ := Option.map_eq_some_iff.mp h
      exact ⟨rest, hrest⟩
    · rintro ⟨rest, hrest⟩
      exact ⟨_, Option.map_eq_some_iff.mpr ⟨rest, hrest, rfl⟩⟩
  | hpercent after ih =>
    rw [properlyEscaped_percent]
    simp only [percentDecode_percent]
    constructor
    · rintro ⟨_, high, low, rest, b, more, hafter, hbyte, _, hmore⟩
      exact ⟨high, low, rest, hafter, ⟨b, hbyte⟩, (ih high low rest hafter).mp ⟨more, hmore⟩⟩
    · rintro ⟨high, low, rest, hafter, ⟨b, hbyte⟩, hrest⟩
      obtain ⟨more, hmore⟩ := (ih high low rest hafter).mpr hrest
      exact ⟨b :: more, high, low, rest, b, more, hafter, hbyte, rfl, hmore⟩

/-! ### Parts -/

/-- The keywords that begin a digest, each with the component it makes of the digest. -/
def keywords : List (List Char × (Digest → Component)) :=
  [("sha256digest=".toList, .implicitDigest), ("params-sha256=".toList, .parameterDigest)]

def BeginsDigest (part : List Char) : Prop :=
  ∃ keyword ∈ keywords, keyword.1 <+: part

instance (part : List Char) : Decidable (BeginsDigest part) :=
  inferInstanceAs (Decidable (∃ keyword ∈ keywords, keyword.1 <+: part))

/-- Exactly sixty-four hexadecimal digits. -/
def IsDigestText (digits : List Char) : Prop :=
  digits.length = 64 ∧ ∀ c ∈ digits, ∃ v, Hex.IsDigit c v

/-- A keyword with the text of a digest, or no keyword and no bad escape. -/
def WellFormed (part : List Char) : Prop :=
  (∃ keyword ∈ keywords, ∃ digits, part = keyword.1 ++ digits ∧ IsDigestText digits) ∨
    ¬ BeginsDigest part ∧ ProperlyEscaped part

/-- The component that a part stands for. -/
inductive Reads : List Char → Component → Prop where
  | digest {keyword : List Char} {make : Digest → Component} {digits : List Char} {digest : Digest}
      (hkeyword : (keyword, make) ∈ keywords) (hdigits : Hex.Spells digits digest.bytes) :
      Reads (keyword ++ digits) (make digest)
  | generic {part : List Char} {bytes : List UInt8} (hpart : ¬ BeginsDigest part)
      (hbytes : Unescapes (utf8 part) bytes) : Reads part (.generic bytes)

/-- The error for a part that is not well formed, with the whole part as it was written. -/
def blame (part : List Char) : NameError :=
  if BeginsDigest part then .invalidDigest (String.ofList part)
  else .invalidPercentEncoding (String.ofList part)

variable {digits : List Char} {keyword : List Char × (Digest → Component)}

theorem afterStart?_eq_none_iff {start text : List Char} :
    afterStart? start text = none ↔ ¬ start <+: text := by
  rw [afterStart?, ite_eq_right_iff, List.isPrefixOf_iff_prefix]
  constructor
  · intro h hprefix
    cases h hprefix
  · intro h hprefix
    exact absurd hprefix h

/-- No part begins with both keywords. -/
theorem keyword_unique {other : List Char × (Digest → Component)} {more : List Char}
    (hkeyword : keyword ∈ keywords) (hother : other ∈ keywords)
    (h : keyword.1 ++ digits = other.1 ++ more) : keyword = other ∧ digits = more := by
  have hdifferent (front back : List Char) :
      "sha256digest=".toList ++ front ≠ "params-sha256=".toList ++ back := fun h =>
    absurd (List.cons.inj h).1 (by decide)
  simp only [keywords, List.mem_cons, List.not_mem_nil, or_false] at hkeyword hother
  rcases hkeyword with rfl | rfl <;> rcases hother with rfl | rfl
  · exact ⟨rfl, List.append_cancel_left h⟩
  · exact absurd h (hdifferent _ _)
  · exact absurd h.symm (hdifferent _ _)
  · exact ⟨rfl, List.append_cancel_left h⟩

theorem beginsDigest_keyword (h : keyword ∈ keywords) : BeginsDigest (keyword.1 ++ digits) :=
  ⟨keyword, h, digits, rfl⟩

theorem digest?_eq_some_iff {digest : Digest} :
    digest? digits = some digest ↔ Hex.Spells digits digest.bytes := by
  rw [← Hex.decode_eq_some_iff, digest?]
  constructor
  · intro h
    split at h
    case h_1 bytes hbytes =>
      split at h
      · obtain rfl := Option.some.inj h
        exact hbytes
      · cases h
    case h_2 => cases h
  · intro h
    simp only [h, digest.length_bytes, dite_true]

theorem exists_digest?_iff : (∃ digest, digest? digits = some digest) ↔ IsDigestText digits := by
  simp only [digest?_eq_some_iff]
  constructor
  · rintro ⟨digest, h⟩
    have hlength := h.length_eq
    rw [digest.length_bytes] at hlength
    exact ⟨hlength, h.isDigit_of_mem⟩
  · rintro ⟨hlength, hdigits⟩
    obtain ⟨bytes, hbytes⟩ := Hex.exists_spells (show _ = 2 * 32 from hlength) hdigits
    have hcount := hbytes.length_eq
    exact ⟨⟨bytes, by omega⟩, hbytes⟩

/-- What is read after a keyword. -/
theorem component_keyword (h : keyword ∈ keywords) (digits : List Char) :
    component (keyword.1 ++ digits) = match digest? digits with
      | some digest => .ok (keyword.2 digest)
      | none => .error (.invalidDigest (String.ofList (keyword.1 ++ digits))) := by
  simp only [keywords, List.mem_cons, List.not_mem_nil, or_false] at h
  rcases h with rfl | rfl
  · have hafter : afterStart? digestStart ("sha256digest=".toList ++ digits) = some digits :=
      afterStart?_append digestStart digits
    cases hread : digest? digits <;> simp only [component, hafter, hread]
  · have hdigest : afterStart? digestStart ("params-sha256=".toList ++ digits) = none := rfl
    have hafter : afterStart? parameterStart ("params-sha256=".toList ++ digits) = some digits :=
      afterStart?_append parameterStart digits
    cases hread : digest? digits <;> simp only [component, hdigest, hafter, hread]

theorem component_generic (h : ¬ BeginsDigest part) :
    component part = match percentDecode part with
      | some bytes => .ok (.generic bytes)
      | none => .error (.invalidPercentEncoding (String.ofList part)) := by
  have hdigest : afterStart? digestStart part = none :=
    afterStart?_eq_none_iff.mpr fun hprefix => h ⟨_, List.mem_cons_self, hprefix⟩
  have hparameter : afterStart? parameterStart part = none :=
    afterStart?_eq_none_iff.mpr fun hprefix =>
      h ⟨_, List.mem_cons_of_mem _ List.mem_cons_self, hprefix⟩
  cases hread : percentDecode part <;> simp only [component, hdigest, hparameter, hread]

theorem reads_keyword (h : keyword ∈ keywords) {c : Component} :
    Reads (keyword.1 ++ digits) c ↔
      ∃ digest, digest? digits = some digest ∧ c = keyword.2 digest := by
  simp only [digest?_eq_some_iff]
  constructor
  · intro hreads
    generalize hpart : keyword.1 ++ digits = part at hreads
    cases hreads with
    | digest hother hdigits =>
      obtain ⟨rfl, rfl⟩ := keyword_unique h hother hpart
      exact ⟨_, hdigits, rfl⟩
    | generic hplain => exact absurd (hpart ▸ beginsDigest_keyword h) hplain
  · rintro ⟨digest, hdigits, rfl⟩
    exact .digest h hdigits

theorem reads_generic (h : ¬ BeginsDigest part) {c : Component} :
    Reads part c ↔ ∃ bytes, percentDecode part = some bytes ∧ c = .generic bytes := by
  simp only [percentDecode_eq_some_iff]
  constructor
  · intro hreads
    cases hreads with
    | digest hkeyword => exact absurd (beginsDigest_keyword hkeyword) h
    | generic _ hbytes => exact ⟨_, hbytes, rfl⟩
  · rintro ⟨bytes, hbytes, rfl⟩
    exact .generic h hbytes

theorem wellFormed_keyword (h : keyword ∈ keywords) :
    WellFormed (keyword.1 ++ digits) ↔ ∃ digest, digest? digits = some digest := by
  rw [exists_digest?_iff]
  constructor
  · rintro (⟨other, hother, more, hpart, hmore⟩ | ⟨hplain, _⟩)
    · obtain ⟨rfl, rfl⟩ := keyword_unique h hother hpart
      exact hmore
    · exact absurd (beginsDigest_keyword h) hplain
  · intro hdigits
    exact .inl ⟨keyword, h, digits, rfl, hdigits⟩

theorem wellFormed_generic (h : ¬ BeginsDigest part) :
    WellFormed part ↔ ∃ bytes, percentDecode part = some bytes := by
  rw [exists_percentDecode_iff]
  constructor
  · rintro (⟨keyword, hkeyword, digits, rfl, _⟩ | ⟨_, hescaped⟩)
    · exact absurd (beginsDigest_keyword hkeyword) h
    · exact hescaped
  · intro hescaped
    exact .inr ⟨h, hescaped⟩

/-- A part is read as what it stands for if it is well formed, and is blamed otherwise. -/
theorem component_spec (part : List Char) :
    (∃ c, component part = .ok c ∧ WellFormed part ∧ ∀ e, Reads part e ↔ e = c) ∨
      component part = .error (blame part) ∧ ¬ WellFormed part ∧ ∀ e, ¬ Reads part e := by
  by_cases hpart : BeginsDigest part
  · obtain ⟨keyword, hkeyword, digits, rfl⟩ := hpart
    rw [component_keyword hkeyword, wellFormed_keyword hkeyword,
      blame, if_pos (beginsDigest_keyword hkeyword)]
    simp only [reads_keyword hkeyword]
    cases digest? digits with
    | some digest => exact .inl ⟨keyword.2 digest, rfl, ⟨digest, rfl⟩, by simp⟩
    | none => exact .inr ⟨rfl, by simp, by simp⟩
  · rw [component_generic hpart, wellFormed_generic hpart, blame, if_neg hpart]
    simp only [reads_generic hpart]
    cases percentDecode part with
    | some bytes => exact .inl ⟨.generic bytes, rfl, ⟨bytes, rfl⟩, by simp⟩
    | none => exact .inr ⟨rfl, by simp, by simp⟩

theorem component_eq_ok_iff {c : Component} : component part = .ok c ↔ Reads part c := by
  rcases component_spec part with ⟨e, he, _, hreads⟩ | ⟨herror, _, hreads⟩
  · rw [he, hreads, Except.ok.injEq, eq_comm]
  · rw [herror]
    exact iff_of_false nofun (hreads c)

theorem exists_component_iff : (∃ c, component part = .ok c) ↔ WellFormed part := by
  rcases component_spec part with ⟨c, hc, hwell, _⟩ | ⟨herror, hbad, _⟩
  · exact iff_of_true ⟨c, hc⟩ hwell
  · rw [herror]
    exact iff_of_false nofun hbad

theorem component_eq_error_iff {err : NameError} :
    component part = .error err ↔ ¬ WellFormed part ∧ err = blame part := by
  rcases component_spec part with ⟨c, hc, hwell, _⟩ | ⟨herror, hbad, _⟩
  · rw [hc]
    exact iff_of_false nofun fun h => h.1 hwell
  · rw [herror, Except.error.injEq, eq_comm]
    exact (and_iff_right hbad).symm

/-! ### The pieces between slashes -/

/-- What is not empty between the slashes of a text, without one leading scheme. -/
def rawParts (text : List Char) : List (List Char) :=
  (List.splitOn '/' (if "ndn:".toList <+: text then text.drop 4 else text)).filter (· ≠ [])

theorem pieces_eq_splitOn (text : List Char) : pieces text = List.splitOn '/' text := by
  induction text with
  | nil => rfl
  | cons c text ih =>
    rw [pieces, List.splitOn, List.splitOnP_cons_eq_if_modifyHead, ← List.splitOn, ← ih]
    simp only [beq_iff_eq]
    split
    · rfl
    · have hne : pieces text ≠ [] := ih ▸ List.splitOnP_ne_nil _ _
      obtain ⟨piece, more, hpieces⟩ := List.exists_cons_of_ne_nil hne
      rw [hpieces]
      rfl

theorem parts_eq_rawParts (text : List Char) : parts text = rawParts text := by
  have hscheme : (afterStart? scheme text).getD text =
      if "ndn:".toList <+: text then text.drop 4 else text := by
    unfold afterStart?
    simp only [List.isPrefixOf_iff_prefix]
    by_cases h : scheme <+: text
    · rw [if_pos h, if_pos (show "ndn:".toList <+: text from h)]
      rfl
    · rw [if_neg h, if_neg (show ¬ "ndn:".toList <+: text from h)]
      rfl
  rw [parts, rawParts, hscheme, pieces_eq_splitOn]
  congr 1
  funext part
  cases part <;> rfl

end Uri

/-! ### Names -/

namespace Name

variable {text : String}

theorem ofUri_eq_mapM (text : String) :
    ofUri text = (Uri.rawParts text.toList).mapM Uri.component := by
  rw [ofUri, ofUriChars, Uri.parts_eq_rawParts]

theorem ofUri_eq_ok_iff {n : Name} :
    ofUri text = .ok n ↔ List.Forall₂ Uri.Reads (Uri.rawParts text.toList) n := by
  simp only [ofUri_eq_mapM, mapM_eq_ok_iff, Uri.component_eq_ok_iff]

theorem ofUri_eq_error_iff {err : NameError} :
    ofUri text = .error err ↔ ∃ earlier part later,
      Uri.rawParts text.toList = earlier ++ part :: later ∧
        (∀ e ∈ earlier, Uri.WellFormed e) ∧ ¬ Uri.WellFormed part ∧ err = Uri.blame part := by
  simp only [ofUri_eq_mapM, mapM_eq_error_iff, Uri.exists_component_iff, Uri.component_eq_error_iff]

/-- A name is read if there is no part to blame. -/
theorem exists_ofUri_iff :
    (∃ n, ofUri text = .ok n) ↔ ∀ part ∈ Uri.rawParts text.toList, Uri.WellFormed part := by
  simp only [ofUri_eq_mapM, exists_mapM_iff, Uri.exists_component_iff]

/-- The reader of names takes exactly the texts whose parts are all well formed. The name then has
one component for each part, in order, and each is what its part stands for. Any other text is
refused with the first part that is not well formed, whole and as it was written, as a bad digest if
it begins with the keyword of one and as a bad escape otherwise. -/
theorem ofUri_grammar (text : String) :
    ((∃ n, ofUri text = .ok n) ↔ ∀ part ∈ Uri.rawParts text.toList, Uri.WellFormed part) ∧
      (∀ n, ofUri text = .ok n ↔ List.Forall₂ Uri.Reads (Uri.rawParts text.toList) n) ∧
        ∀ err, ofUri text = .error err ↔ ∃ earlier part later,
          Uri.rawParts text.toList = earlier ++ part :: later ∧
            (∀ e ∈ earlier, Uri.WellFormed e) ∧ ¬ Uri.WellFormed part ∧ err = Uri.blame part :=
  ⟨exists_ofUri_iff, fun _ => ofUri_eq_ok_iff, fun _ => ofUri_eq_error_iff⟩

/-- The digest that is too short is to blame, and not the escape after it that lacks a digit. -/
example :
    ofUri "ndn:/%c3%A9/é//sha256digest=00/%4" = .error (.invalidDigest "sha256digest=00") := by
  decide +kernel

end Name

end NamedData
