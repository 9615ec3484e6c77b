import NamedData.Name.Uri
import NamedData.Settings.Basic
import NamedData.Toml.Document

/-!
Settings read from a TOML document. Every key is optional, and a key that is no setting is refused.
-/

namespace NamedData

/-- Why settings could not be read. -/
inductive SettingsError where
  /-- The file is missing or holds no text. -/
  | unreadable
  /-- The text is no document, or the document holds something other than settings. -/
  | malformed
deriving DecidableEq

namespace Settings

/-- A number that fits sixty-four bits. -/
def number? : Toml.Value → Option Nat
  | .integer n => if 0 ≤ n ∧ n ≤ Timestamp.limit then some n.toNat else none
  | _ => none

/-- A policy, as its keyword or as a table whose only key is the keyword of an empty value. -/
def policy? : Toml.Value → Option UnsolicitedPolicy
  | .text s => UnsolicitedPolicy.ofKeyword? (String.ofList s)
  | .table _ [(s, .table _ [])] => UnsolicitedPolicy.ofKeyword? (String.ofList s)
  | .table _ [(s, .list [])] => UnsolicitedPolicy.ofKeyword? (String.ofList s)
  | _ => none

def name? : Toml.Value → Option Name
  | .text s => (Name.ofUriChars s).toOption
  | _ => none

def names? : Toml.Value → Option (List Name)
  | .list items => items.mapM name?
  | _ => none

def withField (s : Settings) (key : String) (v : Toml.Value) : Option Settings :=
  match key with
  | "dead_nonce_lifetime_ms" =>
    (number? v).map fun n => { s with deadNonceLifetime := UInt64.ofNat n }
  | "unsolicited_data_policy" => (policy? v).map fun p => { s with unsolicitedPolicy := p }
  | "network_regions" => (names? v).map fun regions => { s with regions }
  | "content_store_capacity" => (number? v).map fun n => { s with storeCapacity := n }
  | "content_store_retention_ms" =>
    (number? v).map fun n => { s with storeRetention := UInt64.ofNat n }
  | _ => none

def ofFields (fields : Toml.Fields) : Except SettingsError Settings :=
  let add (s : Settings) (field : List Char × Toml.Value) :=
    s.withField (String.ofList field.1) field.2
  match fields.foldlM add ({} : Settings) with
  | some s => .ok s
  | none => .error .malformed

def ofText (text : String) : Except SettingsError Settings :=
  match Toml.document text.toList with
  | some fields => ofFields fields
  | none => .error .malformed

/-- Reads settings from the contents of a file, if there is one. -/
def ofFile (contents : Option (List UInt8)) : Except SettingsError Settings :=
  match contents.bind fun bytes => String.fromUTF8? ⟨bytes.toArray⟩ with
  | some text => ofText text
  | none => .error .unreadable

end Settings

end NamedData
