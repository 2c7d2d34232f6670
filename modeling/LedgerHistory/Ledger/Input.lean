import LedgerHistory.Ledger.Codec

/-!
# Ledger input

An input holds a batch of extensions or a single one. An object is a batch if it decodes as one, so
that a batch that does not decode may still be a single extension without transactions.
-/

namespace LedgerHistory

/-- What an input holds. -/
inductive LedgerInput
  | batch (extensions : List LedgerExtension)
  | single (extension : LedgerExtension)
  deriving DecidableEq

namespace LedgerInput

/-- The extensions of an input, in order. -/
def extensions : LedgerInput → List LedgerExtension
  | .batch xs => xs
  | .single x => [x]

def batchFields : List (Decoder.RecordField (Option (List LedgerExtension))) :=
  [⟨"extensions", Option.isSome, fun o s _ => do
      return some (← LedgerExtension.decode.list o s), false⟩]

/-- Reads a batch, which must be an object. -/
def decodeBatch : Decoder LedgerInput :=
  Decoder.objectOnly <| Decoder.record batchFields none fun p => do
    return .batch (← Decoder.required "extensions" p)

def decodeSingle : Decoder LedgerInput := LedgerExtension.decode.check fun x => .ok (.single x)

def decode : Decoder LedgerInput := Decoder.oneOf "LedgerInput" [decodeBatch, decodeSingle]

/-- The extensions that a text holds. -/
def parse (text : String) : Except DecodeError (List LedgerExtension) :=
  (decode.ofText text).map extensions

end LedgerInput

end LedgerHistory
