/-
  Mnemion/VaultPaths.lean
  =======================
  **Notes keep their paths** (`vault_refresh.py`).  An exported note whose identity has a
  path already is stored there, and the wikilinks of all notes are rewritten for it.
-/
import Mnemion.Wikilinks
import Mnemion.PortablePaths
import Mnemion.Outcome
import Mnemion.Assoc
import Mathlib.Data.List.Infix

namespace Mnemion.VaultPaths

open Outcome PortablePaths Wikilinks

inductive RefreshError where
  | unsafePath (relative : Text)
  | escapes (relative : Text)
  | symlink (relative : Text)
  | invalidYaml
  | collision (destination : Text)
  /-- An exception that is not a `VaultRefreshError`. -/
  | unexpected
deriving DecidableEq, Repr

theorem text_lawful : LawfulBEq Text := inferInstance

attribute [local instance] text_lawful

/-- What the code asks of a loaded YAML value. -/
inductive YamlValue where
  | text (value : Text)
  | list (items : List YamlValue) (str : Text)
  | other (truthy : Bool) (str : Text)

def YamlValue.truthy : YamlValue → Bool
  | .text value => value ≠ []
  | .list items _ => !items.isEmpty
  | .other truthy _ => truthy

def YamlValue.str : YamlValue → Text
  | .text value => value
  | .list _ str => str
  | .other _ str => str

/-- `values.get` of a loaded mapping. -/
abbrev Values := Text → Option YamlValue

/-- The directory of the vault, Unicode, and `yaml.safe_load`, which gives `none` for what
    is no mapping. -/
structure Vault where
  unicode : Unicode
  /-- the target resolves to a path inside the root -/
  inside : Text → Bool
  /-- the target or a parent is a symbolic link -/
  linked : Text → Bool
  isFile : Text → Bool
  read : Text → Except RefreshError Text
  safeLoad : Text → Except Unit (Option Values)

section

variable (vault : Vault)

/-- `safe_target`; an absolute path has an empty part, and a drive a colon. -/
def safeTarget (relative : Text) : Except RefreshError Unit := do
  check (relative ≠ [] ∧ '\\' ∉ relative ∧
    (parts relative).all (fun part =>
      portablePart part && decide (pathKey vault.unicode part ≠ ".obsidian".toList)) ∧
    relative.getLast? ≠ some '/' ∧ ':' ∉ relative ∧ '\x00' ∉ relative) (.unsafePath relative)
  check (vault.inside relative = true) (.escapes relative)
  check (vault.linked relative = false) (.symlink relative)

/-! ### Front matter -/

/-- `\r?\n` -/
def lineEnd? : Text → Option Text
  | '\r' :: '\n' :: text => some text
  | '\n' :: text => some text
  | _ => none

/-- `\r?\n---(?:\r?\n|$)` -/
def closing? (text : Text) : Option Text :=
  match (lineEnd? text).bind (fun rest => "---".toList.isPrefixOf? rest) with
  | some [] => some []
  | some rest => lineEnd? rest
  | none => none

/-- The rest behind the first closing line. -/
def behindClosing : Text → Option Text
  | [] => closing? []
  | c :: text => (closing? (c :: text)).or (behindClosing text)

/-- The front matter of a note, if it has one. -/
def frontmatter (text : Text) : Text :=
  match ("---".toList.isPrefixOf? text).bind lineEnd? |>.bind behindClosing with
  | some rest => text.take (text.length - rest.length)
  | none => []

/-- Ahead of the next `---`. -/
def aheadDashes : Text → Text
  | [] => []
  | c :: text => if "---".toList.isPrefixOf (c :: text) then [] else c :: aheadDashes text

/-- `prefix.split("---", 2)[1]` -/
def yamlText (frontmatter : Text) : Text := aheadDashes (frontmatter.drop 3)

/-- `values.get(a) or values.get(b) or ...` -/
def firstOf (values : Values) : List String → Option YamlValue
  | [] => none
  | [key] => values key.toList
  | key :: keys =>
    match values key.toList with
    | some value => if value.truthy then some value else firstOf values keys
    | none => firstOf values keys

def isText (value : Option YamlValue) (text : String) : Bool :=
  match value with
  | some (.text value) => value = text.toList
  | _ => false

/-- `note_identity` -/
def noteIdentity (text : Text) : Except RefreshError (Option Text) :=
  if frontmatter text = [] then .ok none
  else match vault.safeLoad (yamlText (frontmatter text)) with
    | .error _ => .error .invalidYaml
    | .ok none => .ok none
    | .ok (some values) =>
      let kind := values "mnemion_type".toList
      let value :=
        if isText kind "revision" then values "revision_id".toList
        else if isText kind "source" then values "source_revision_id".toList
        else if isText kind "space" then values "space_id".toList
        else firstOf values ["memory_id", "id", "mnemion_page_id"]
      .ok ((value.filter (·.truthy)).map (·.str))

/-- `note_aliases` -/
def noteAliases (text : Text) : Except RefreshError (List Text) :=
  if frontmatter text = [] then .ok []
  else match vault.safeLoad (yamlText (frontmatter text)) with
    | .error _ => .error .unexpected
    | .ok none => .ok []
    | .ok (some values) =>
      let kind := values "mnemion_type".toList
      if isText kind "revision" || isText kind "source" || isText kind "space" then do
        return ((← noteIdentity vault text).filter (· ≠ [])).toList
      else
        let aliases := ["memory_id", "id", "mnemion_page_id"].filterMap fun key =>
          ((values key.toList).filter (·.truthy)).map (·.str)
        let legacy := match values "legacy_ids".toList with
          | some (.list items _) => items.filterMap fun
            | .text value => some value
            | _ => none
          | _ => []
        .ok (aliases ++ legacy).eraseDups

/-! ### Stable paths -/

/-- `path.removesuffix(".md")` -/
def stem (path : Text) : Text :=
  if ".md".toList.isSuffixOf path then path.take (path.length - 3) else path

/-- What `stable_paths` reads of a manifest. -/
structure Manifest where
  idPaths : List (Text × Text)
  files : List Text

/-- The path map, completed from the listed files of a manifest without one. -/
def oldPaths (previous : Manifest) : Except RefreshError (List (Text × Text)) :=
  previous.files.foldlM (fun oldPaths rel => do
    safeTarget vault rel
    if vault.isFile rel ∧ rel ∉ oldPaths.map (·.2) then
      match ← noteIdentity vault (← vault.read rel) with
      | some identity =>
        if identity = [] ∨ (Assoc.lookup identity oldPaths).isSome then return oldPaths
        else return oldPaths ++ [(identity, rel)]
      | none => return oldPaths
    else return oldPaths) previous.idPaths

/-- The path of the first alias that has one. -/
def oldPath (oldPaths : List (Text × Text)) (aliases : List Text) : Option Text :=
  aliases.findSome? fun identity => Assoc.lookup identity oldPaths

/-- `replacements`: exported paths with their notes' old paths. -/
def replacements (oldPaths : List (Text × Text)) (files : List (Text × Text)) :
    Except RefreshError (List (Text × Text)) :=
  files.foldlM (fun replacements note => do
    let aliases ← noteAliases vault note.2
    match oldPath oldPaths aliases with
    | some old => do
      safeTarget vault old
      return replacements ++ [(note.1, old)]
    | none => return replacements) []

/-- The rewriting of one note, `re.sub` after `re.sub`. -/
def rewrite (replacements : List (Text × Text)) (text : Text) : Text :=
  replacements.foldl (fun text replacement =>
    if replacement.1 ≠ replacement.2 then substitute (stem replacement.1) (stem replacement.2) text
    else text) text

/-- `replacements.get(rel, rel)` -/
def destination (replacements : List (Text × Text)) (rel : Text) : Text :=
  (Assoc.lookup rel replacements).getD rel

/-- `stable_paths`; a dictionary is the list of its items. -/
def stablePaths (files : List (Text × Text)) (previous : Manifest) :
    Except RefreshError (List (Text × Text)) := do
  let oldPaths ← oldPaths vault previous
  let replacements ← replacements vault oldPaths files
  let (result, _) ← files.foldlM (fun (result, folded) note => do
    let destination := destination replacements note.1
    safeTarget vault destination
    check (pathKey vault.unicode destination ∉ folded) (.collision destination)
    return (Assoc.upsert destination (rewrite replacements note.2) result,
      folded ++ [pathKey vault.unicode destination])) (([], []) : List (Text × Text) × List Text)
  return result

end

end Mnemion.VaultPaths
