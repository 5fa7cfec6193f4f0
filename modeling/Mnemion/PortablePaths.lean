/-
  Mnemion/PortablePaths.lean
  ==========================
  **One path identity across filesystems** (`portable_paths.py`).  Unicode normalization
  and case folding are the language's own tables and stand as parameters.
-/
import Mathlib.Data.List.DropRight

namespace Mnemion.PortablePaths

abbrev Text := List Char

/-- `unicodedata.normalize("NFC", ...)` and `str.casefold`. -/
structure Unicode where
  nfc : Text → Text
  casefold : Text → Text

def pathKey (unicode : Unicode) (value : Text) : Text := unicode.casefold (unicode.nfc value)

/-- `(?:\.|$)` -/
def deviceEnd : Text → Bool
  | [] | ['\n'] | '.' :: _ => true
  | _ => false

/-- `DEVICES.match` -/
def isDevice (value : Text) : Bool :=
  let name := value.map Char.toUpper
  (["CON".toList, "PRN".toList, "AUX".toList, "NUL".toList].contains (name.take 3) &&
    deviceEnd (value.drop 3)) ||
  (["COM".toList, "LPT".toList].contains (name.take 3) &&
    (value.drop 3).head?.any (fun c => c ∈ "123456789¹²³".toList) && deviceEnd (value.drop 4))

def portableChar (c : Char) : Bool := 32 ≤ c.toNat && !("<>:\"|?*\\".toList.contains c)

def portablePart (value : Text) : Bool :=
  value ≠ [] && value ≠ ['.'] && value ≠ ['.', '.'] &&
    !(value ≠ value.rdropWhile (fun c => c = ' ' || c = '.') || isDevice value ||
      value.any fun c => !portableChar c)

/-- `value.split("/")` -/
def parts (value : Text) : List Text := value.splitOn '/'

example : portablePart "con.md".toList = false := by decide +kernel

example : portablePart "Contents.md".toList = true := by decide +kernel

end Mnemion.PortablePaths
