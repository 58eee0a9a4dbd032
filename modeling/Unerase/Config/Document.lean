import Unerase.Config.Basic
import Unerase.Failure

/-!
# Reading a configuration

A configuration is written as a TOML document. Taking the text apart is left to a decoder. What is
decided here is which entries the document may have and what they set: every key is optional, none
may be given twice, and no other key is known. Counts have 64 bits, so that every integer of a
document is a count unless it is negative.
-/

namespace Unerase.Config

/-! ## Documents -/

/-- A value in a document. -/
inductive Item where
  | integer (z : Int64)
  | boolean (b : Bool)
  /-- A string, a float, a date or time, an array or a table. -/
  | other
  deriving DecidableEq

/-- A document, as its entries in the order in which they are written. -/
abbrev Document := List (String × Item)

/-- Why a document is no configuration. -/
inductive Misfit where
  /-- No setting has the name. -/
  | unknown (name : String)
  /-- The setting is given twice. -/
  | repeated (key : Key)
  /-- The setting cannot have the value. -/
  | unfit (key : Key) (item : Item)
  deriving DecidableEq

/-- A decoder of TOML. -/
structure Decoder where
  /-- The document that a text stands for, or what is wrong with the text. -/
  decode : String → Except String Document
  /-- How it is put that the document of a text does not fit. -/
  report : String → Misfit → String

/-! ## Settings -/

/-- What an item gives to a setting. -/
def Item.value? : Item → Option Value
  | .integer z => z.toInt.toNat?.map .count
  | .boolean b => some (.toggle b)
  | .other => none

/-- Enters what an entry sets. Beside the configuration, the keys that it was given are kept. -/
def enter (state : Config × List Key) (entry : String × Item) :
    Except Misfit (Config × List Key) :=
  match Key.ofName? entry.1 with
  | none => .error (.unknown entry.1)
  | some key =>
    if key ∈ state.2 then .error (.repeated key)
    else
      match entry.2.value?.bind (state.1.set? key) with
      | none => .error (.unfit key entry.2)
      | some config => .ok (config, key :: state.2)

/-- The configuration that a document gives. Keys that are not given have their defaults. -/
def ofDocument (document : Document) : Except Misfit Config :=
  (document.foldlM enter ({}, [])).map (·.1)

/-- Reads a configuration. -/
def read (decoder : Decoder) (text : String) : Except Failure Config :=
  match decoder.decode text with
  | .error cause => .error (.notConfig cause)
  | .ok document =>
    match ofDocument document with
    | .error misfit => .error (.notConfig (decoder.report text misfit))
    | .ok config => .ok config

end Unerase.Config
