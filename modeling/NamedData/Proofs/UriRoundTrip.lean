import NamedData.Name.Uri
import NamedData.Proofs.Arena

/-!
Which names are read back from their URI. The text of a component has no slash, so that the parts of
a name's text are the texts of its components, and the text of a generic component has no equals
sign, so that it is never taken for a digest. A name is lost only where a component is empty, is a
digest of another length, or is of a kind for which there is no text. No text is read as such a name,
so that whatever has been read can be written and read again.
-/

namespace NamedData

/-! ### Bytes in a text -/

namespace Hex

theorem digit_ne_slash {n : Nat} (h : n < 16) : digit n ≠ '/' := by
  have hall : ∀ m : Fin 16, digit m ≠ '/' := by decide
  exact hall ⟨n, h⟩

theorem slash_notMem_encode (bytes : List UInt8) : '/' ∉ encode bytes := by
  intro hmem
  obtain ⟨b, _, hdigit⟩ := List.mem_flatMap.mp hmem
  have hb := b.toNat_lt
  simp only [List.mem_cons, List.not_mem_nil, or_false] at hdigit
  rcases hdigit with hhigh | hlow
  · exact digit_ne_slash (by omega) hhigh.symm
  · exact digit_ne_slash (by omega) hlow.symm

theorem upperDigit_separates_nothing {n : Nat} (h : n < 16) :
    upperDigit n ≠ '/' ∧ upperDigit n ≠ '=' := by
  have hall : ∀ m : Fin 16, upperDigit m ≠ '/' ∧ upperDigit m ≠ '=' := by decide
  exact hall ⟨n, h⟩

theorem mem_escape {b : UInt8} {c : Char} (h : c ∈ escape b) : c ≠ '/' ∧ c ≠ '=' := by
  have hb := b.toNat_lt
  simp only [escape, List.mem_cons, List.not_mem_nil, or_false] at h
  rcases h with rfl | rfl | rfl
  · decide
  · exact upperDigit_separates_nothing (by omega)
  · exact upperDigit_separates_nothing (by omega)

end Hex

namespace Uri

/-- An unreserved byte stands for itself and is none of the characters with a meaning. -/
theorem unreserved_char {b : UInt8} (h : isUnreserved b) :
    String.utf8EncodeChar (Char.ofNat b.toNat) = [b] ∧
      Char.ofNat b.toNat ≠ '%' ∧ Char.ofNat b.toNat ≠ '/' ∧ Char.ofNat b.toNat ≠ '=' := by
  have hall : ∀ n : Fin 256, isUnreserved (UInt8.ofNat n) →
      String.utf8EncodeChar (Char.ofNat n) = [UInt8.ofNat n] ∧
        Char.ofNat n ≠ '%' ∧ Char.ofNat n ≠ '/' ∧ Char.ofNat n ≠ '=' := by decide +kernel
  have hb := hall ⟨b.toNat, b.toNat_lt⟩
  simp only [UInt8.ofNat_toNat] at hb
  exact hb h

theorem percentEncode_cons (b : UInt8) (bytes : List UInt8) :
    percentEncode (b :: bytes) =
      (if isUnreserved b then [Char.ofNat b.toNat] else Hex.escape b) ++ percentEncode bytes :=
  List.flatMap_cons

theorem percentDecode_escape (b : UInt8) (rest : List Char) :
    percentDecode (Hex.escape b ++ rest) = (percentDecode rest).map (b :: ·) := by
  simp only [Hex.escape, List.cons_append, List.nil_append, percentDecode, Hex.byte?_upperDigits]
  cases percentDecode rest <;> rfl

theorem percentDecode_cons {c : Char} (h : c ≠ '%') (rest : List Char) :
    percentDecode (c :: rest) = (percentDecode rest).map (String.utf8EncodeChar c ++ ·) := by
  rw [percentDecode]
  · exact if_neg h
  · intro _ _ _ hc
    exact absurd hc h

/-- Encoded bytes are decoded again. -/
theorem percentDecode_percentEncode (bytes : List UInt8) :
    percentDecode (percentEncode bytes) = some bytes := by
  induction bytes with
  | nil => rfl
  | cons b bytes ih =>
    rw [percentEncode_cons]
    split
    case isTrue h =>
      obtain ⟨hutf8, hpercent, _⟩ := unreserved_char h
      rw [List.singleton_append, percentDecode_cons hpercent, hutf8, ih]
      rfl
    case isFalse =>
      rw [percentDecode_escape, ih]
      rfl

theorem mem_percentEncode {bytes : List UInt8} {c : Char} (h : c ∈ percentEncode bytes) :
    c ≠ '/' ∧ c ≠ '=' := by
  obtain ⟨b, _, hc⟩ := List.mem_flatMap.mp h
  split at hc
  case isTrue hb =>
    rw [List.mem_singleton.mp hc]
    exact (unreserved_char hb).2.2
  case isFalse => exact Hex.mem_escape hc

/-- A text that is not empty stands for at least one byte. -/
theorem ne_nil_of_percentDecode {text : List Char} {bytes : List UInt8} (hne : text ≠ [])
    (h : percentDecode text = some bytes) : bytes ≠ [] := by
  unfold percentDecode at h
  split at h
  case h_1 => exact absurd rfl hne
  case h_2 =>
    split at h
    · obtain rfl := Option.some.inj h
      exact List.cons_ne_nil _ _
    · cases h
  case h_3 c rest _ =>
    split at h
    · cases h
    · obtain ⟨more, _, rfl⟩ := Option.map_eq_some_iff.mp h
      have hpositive := String.utf8EncodeChar_ne_nil (c := c)
      exact List.append_ne_nil_of_left_ne_nil hpositive more

/-! ### Parts of a text -/

theorem afterStart?_append (start text : List Char) :
    afterStart? start (start ++ text) = some text := by
  simp [afterStart?]

theorem afterStart?_of_notMem {start text : List Char} {c : Char} (hstart : c ∈ start)
    (htext : c ∉ text) : afterStart? start text = none := by
  have hprefix : ¬ start.isPrefixOf text := fun h =>
    htext ((List.isPrefixOf_iff_prefix.mp h).subset hstart)
  exact if_neg hprefix

theorem pieces_slash (rest : List Char) : pieces ('/' :: rest) = [] :: pieces rest := rfl

/-- A piece reaches as far as the next slash. -/
theorem pieces_append {piece rest : List Char} {more : List (List Char)} (h : '/' ∉ piece)
    (hrest : pieces rest = [] :: more) : pieces (piece ++ rest) = piece :: more := by
  induction piece with
  | nil => exact hrest
  | cons c piece ih =>
    have hc : c ≠ '/' := fun hslash => h (hslash ▸ List.mem_cons_self)
    have hpiece : '/' ∉ piece := fun hmem => h (List.mem_cons_of_mem c hmem)
    rw [List.cons_append, pieces, if_neg hc, ih hpiece]

/-- Texts without slashes are the pieces of what they give with a slash before each. -/
theorem pieces_flatMap {α : Type} {text : α → List Char} (list : List α)
    (h : ∀ a ∈ list, '/' ∉ text a) :
    pieces (list.flatMap fun a => '/' :: text a) = [] :: list.map text := by
  induction list with
  | nil => rfl
  | cons a list ih =>
    have hrest := ih fun b hb => h b (List.mem_cons_of_mem a hb)
    rw [List.flatMap_cons, List.cons_append, pieces_slash,
      pieces_append (h a List.mem_cons_self) hrest, List.map_cons]

end Uri

/-! ### Components -/

namespace Component

/-- Some text is read as this component: a digest has its thirty-two bytes, any other component is
generic and is not empty. -/
def Representable (c : Component) : Prop :=
  match c.kind with
  | .generic => c.bytes ≠ []
  | .implicitDigest | .parameterDigest => c.bytes.length = 32
  | .other _ => False

instance (c : Component) : Decidable c.Representable := by
  unfold Representable
  cases c.kind <;> infer_instance

variable {c : Component}

/-- The shapes of a component that some text is read as. -/
theorem Representable.cases (h : c.Representable) :
    (∃ bytes, bytes ≠ [] ∧ c = generic bytes) ∨ (∃ digest, c = implicitDigest digest) ∨
      ∃ digest, c = parameterDigest digest := by
  obtain ⟨code, bytes, hcode⟩ := c
  have hkind := ComponentKind.code_ofCode code
  simp only [Representable, kind] at h
  generalize ComponentKind.ofCode code = kind at h hkind
  subst hkind
  cases kind with
  | generic => exact .inl ⟨bytes, h, rfl⟩
  | implicitDigest => exact .inr (.inl ⟨⟨bytes, h⟩, rfl⟩)
  | parameterDigest => exact .inr (.inr ⟨⟨bytes, h⟩, rfl⟩)
  | other code => exact absurd h id

theorem slash_notMem_uriChars (c : Component) : '/' ∉ c.uriChars := by
  have htext (bytes : List UInt8) : '/' ∉ Uri.percentEncode bytes := fun h =>
    (Uri.mem_percentEncode h).1 rfl
  unfold uriChars
  split
  case h_1 => exact List.not_mem_append (by decide) (Hex.slash_notMem_encode c.bytes)
  case h_2 => exact List.not_mem_append (by decide) (Hex.slash_notMem_encode c.bytes)
  case h_3 code _ =>
    have hcode : '/' ∉ Nat.toDigits 10 code.toNat := fun h =>
      absurd (Nat.isDigit_of_mem_toDigits (by decide) (by decide) h) (by decide)
    exact List.not_mem_append hcode (List.not_mem_cons_of_ne_of_not_mem (by decide) (htext _))
  case h_4 => exact htext c.bytes

theorem uriChars_generic (bytes : List UInt8) :
    (generic bytes).uriChars = Uri.percentEncode bytes := rfl

theorem uriChars_implicitDigest (digest : Digest) :
    (implicitDigest digest).uriChars = Uri.digestStart ++ Hex.encode digest.bytes := rfl

theorem uriChars_parameterDigest (digest : Digest) :
    (parameterDigest digest).uriChars = Uri.parameterStart ++ Hex.encode digest.bytes := rfl

end Component

namespace Uri

theorem digest?_encode (digest : Digest) : digest? (Hex.encode digest.bytes) = some digest := by
  rw [digest?, Hex.decode_encode]
  exact dif_pos digest.length_bytes

theorem component_percentEncode (bytes : List UInt8) :
    component (percentEncode bytes) = .ok (.generic bytes) := by
  have hequals : '=' ∉ percentEncode bytes := fun h => (mem_percentEncode h).2 rfl
  have hdigest : afterStart? digestStart (percentEncode bytes) = none :=
    afterStart?_of_notMem (by decide) hequals
  have hparameter : afterStart? parameterStart (percentEncode bytes) = none :=
    afterStart?_of_notMem (by decide) hequals
  simp only [component, hdigest, hparameter, percentDecode_percentEncode]

theorem component_digestStart (digest : Digest) :
    component (digestStart ++ Hex.encode digest.bytes) = .ok (.implicitDigest digest) := by
  simp only [component, afterStart?_append, digest?_encode]

theorem component_parameterStart (digest : Digest) :
    component (parameterStart ++ Hex.encode digest.bytes) = .ok (.parameterDigest digest) := by
  have hdigest : afterStart? digestStart (parameterStart ++ Hex.encode digest.bytes) = none := rfl
  simp only [component, hdigest, afterStart?_append, digest?_encode]

/-- A representable component has a text, and is read from it. -/
theorem component_uriChars {c : Component} (h : c.Representable) :
    c.uriChars ≠ [] ∧ component c.uriChars = .ok c := by
  rcases h.cases with ⟨bytes, hbytes, rfl⟩ | ⟨digest, rfl⟩ | ⟨digest, rfl⟩
  · rw [Component.uriChars_generic]
    refine ⟨fun hnil => hbytes ?_, component_percentEncode bytes⟩
    have hdecoded := percentDecode_percentEncode bytes
    rw [hnil] at hdecoded
    exact (Option.some.inj hdecoded).symm
  · rw [Component.uriChars_implicitDigest]
    exact ⟨List.cons_ne_nil _ _, component_digestStart digest⟩
  · rw [Component.uriChars_parameterDigest]
    exact ⟨List.cons_ne_nil _ _, component_parameterStart digest⟩

/-- Whatever a part is read as is representable. -/
theorem representable_of_component {part : List Char} {c : Component} (hne : part ≠ [])
    (h : component part = .ok c) : c.Representable := by
  unfold component at h
  split at h
  · split at h
    case h_1 digest _ =>
      obtain rfl := Except.ok.inj h
      exact digest.length_bytes
    case h_2 => cases h
  · split at h
    · split at h
      case h_1 digest _ =>
        obtain rfl := Except.ok.inj h
        exact digest.length_bytes
      case h_2 => cases h
    · split at h
      case h_1 bytes hbytes =>
        obtain rfl := Except.ok.inj h
        exact ne_nil_of_percentDecode hne hbytes
      case h_2 => cases h

end Uri

/-! ### Names -/

namespace Name

/-- Some text is read as this name. -/
def Representable (n : Name) : Prop :=
  ∀ c ∈ n, c.Representable

instance (n : Name) : Decidable n.Representable :=
  inferInstanceAs (Decidable (∀ c ∈ n, c.Representable))

/-- The parts of a name's text are the texts of its components, as far as they are not empty. -/
theorem parts_uriChars (n : Name) :
    Uri.parts n.uriChars = (n.map Component.uriChars).filter fun part => !part.isEmpty := by
  cases n with
  | nil => rfl
  | cons c n =>
    have hscheme : Uri.afterStart? Uri.scheme (uriChars (c :: n)) = none := rfl
    have hpieces : Uri.pieces (uriChars (c :: n)) = [] :: (c :: n).map Component.uriChars :=
      Uri.pieces_flatMap (c :: n) fun e _ => e.slash_notMem_uriChars
    rw [Uri.parts, hscheme, Option.getD_none, hpieces]
    rfl

theorem ofUriChars_uriChars {n : Name} (h : n.Representable) : ofUriChars n.uriChars = .ok n := by
  have hparts : Uri.parts n.uriChars = n.map Component.uriChars := by
    rw [parts_uriChars, List.filter_eq_self]
    intro part hpart
    obtain ⟨c, hc, rfl⟩ := List.mem_map.mp hpart
    simpa using (Uri.component_uriChars (h c hc)).1
  rw [ofUriChars, hparts, List.mapM_map]
  clear hparts
  induction n with
  | nil => rfl
  | cons c n ih =>
    have hc := (Uri.component_uriChars (h c List.mem_cons_self)).2
    have hn := ih fun e he => h e (List.mem_cons_of_mem c he)
    rw [List.mapM_cons, Function.comp_apply, hc, hn]
    rfl

/-- Each component that has been read stands for a part of the text. -/
theorem representable_of_mapM {parts : List (List Char)} {n : Name} (hne : ∀ part ∈ parts, part ≠ [])
    (h : parts.mapM Uri.component = .ok n) : n.Representable := by
  induction parts generalizing n with
  | nil =>
    obtain rfl := Except.ok.inj h
    exact List.forall_mem_nil _
  | cons part parts ih =>
    rw [List.mapM_cons] at h
    obtain ⟨c, hc, h⟩ := bind_eq_ok.mp h
    obtain ⟨rest, hrest, h⟩ := bind_eq_ok.mp h
    obtain rfl := Except.ok.inj h
    exact List.forall_mem_cons.mpr
      ⟨Uri.representable_of_component (hne part List.mem_cons_self) hc,
        ih (fun p hp => hne p (List.mem_cons_of_mem part hp)) hrest⟩

theorem representable_of_ofUri {uri : String} {n : Name} (h : ofUri uri = .ok n) :
    n.Representable := by
  refine representable_of_mapM (fun part hpart hnil => ?_) h
  obtain ⟨_, hnonempty⟩ := List.mem_filter.mp hpart
  rw [hnil] at hnonempty
  cases hnonempty

theorem ofUri_uri {n : Name} (h : n.Representable) : ofUri n.uri = .ok n := by
  rw [ofUri, uri, String.toList_ofList]
  exact ofUriChars_uriChars h

/-- Exactly the representable names are read back from their URI, and only they are ever read, so
that a name that has been read can be written and read again. -/
theorem ofUri_uri_iff :
    (∀ n : Name, ofUri n.uri = .ok n ↔ n.Representable) ∧
      ∀ (text : String) (n : Name), ofUri text = .ok n →
        n.Representable ∧ ofUri n.uri = .ok n := by
  refine ⟨fun n => ⟨representable_of_ofUri, ofUri_uri⟩, fun text n h => ?_⟩
  have hn := representable_of_ofUri h
  exact ⟨hn, ofUri_uri hn⟩

/-- A text with a scheme, an empty part and an escape that need not be one: the name is the same
when it is read from its own text, which has none of them. -/
theorem ofUri_uri_of_scheme :
    ofUri "ndn:/%61//%2F" = .ok [.generic [97], .generic [47]] ∧
      ofUri (uri [.generic [97], .generic [47]]) = .ok [.generic [97], .generic [47]] := by
  have hread : ofUri "ndn:/%61//%2F" = .ok [.generic [97], .generic [47]] := by decide
  exact ⟨hread, (ofUri_uri_iff.2 _ _ hread).2⟩

/-- An empty component, a digest that is too short and a component of another kind are lost. -/
example : ¬ Representable [.generic []] ∧ ¬ Representable [⟨1, [0], by decide⟩] ∧
    ¬ Representable [⟨9, [97], by decide⟩] := by
  decide

end Name

end NamedData
