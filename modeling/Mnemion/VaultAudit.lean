/-
  Mnemion/VaultAudit.lean
  =======================
  **Vault access is authorised, audited and atomic**, over every run of operations,
  with people, keys and grants retired in between.
-/
import Mnemion.VaultChanges
import Mnemion.Machine

namespace Mnemion.Vault

open Outcome

variable {C : Crypto} {call : Call} {command : Command} {tables tables' : Tables} {entry : Uuid}

/-! ### One operation -/

/-- The events of an operation that reached its body. -/
def events (call : Call) (command : Command) (result : Except Failure Response) : List Event :=
  let event := fun entry target outcome =>
    Event.mk call.who.principal call.who.key entry command.action outcome target
  match result with
  | .error failure => [event command.subjectEntry command.target failure.outcome]
  | .ok _ =>
    (match command with
      | .exportArchive entries _ => entries.map fun entry => event (some entry) none .allowed
      | _ => []) ++ [event command.subjectEntry command.target .allowed]

/-- What an operation that was accepted did to the entries. -/
def Accepted (call : Call) (tables tables' : Tables) : Command → Prop
  | .put entry command => Put tables { tables' with audit := tables.audit } entry command.name
  | .grant entry _ => Changed tables tables' entry fun row =>
      { row with accessVersion := row.accessVersion + 1 }
  | .delete entry _ => Changed tables tables' entry (Entry.erase call.who.principal) ∧
      entry ∈ tables'.denials
  | .importArchive _ _ => Imported tables { tables' with audit := tables.audit }
  | _ => tables'.entries = tables.entries ∧ tables'.denials = tables.denials

/-- The values in an answer are those of entries that its caller may read. -/
def Released (C : Crypto) (call : Call) (tables : Tables) : Command → Response → Prop
  | .get entry, .value _ value => ∃ key, Reads C call key tables entry value
  | .exportArchive entries recovery, .envelope _ ciphertext =>
    ∃ key, Seals C call key tables entries recovery ciphertext
  | _, answer => answer.secret = false

/-- What every operation answers for: its result, and the tables before and after it. -/
structure Accountable (C : Crypto) (call : Call) (command : Command) (tables tables' : Tables)
    (result : Except Failure Response) : Prop where
  released : ∀ answer, result = .ok answer → Released C call tables command answer
  /-- An operation that is admitted adds its events, any other changes nothing. -/
  audited : if admitted call tables = .ok () then
      tables'.audit = tables.audit ++ events call command result
    else tables' = tables ∧ ∃ failure, result = .error failure
  /-- An operation that raises changes nothing else. -/
  undone : ∀ failure, result = .error failure → tables' = { tables with audit := tables'.audit }
  accepted : ∀ answer, result = .ok answer → Accepted call tables tables' command

/-- The savepoint of an accepted operation: its changes before the last event. -/
structure Settled (C : Crypto) (call : Call) (command : Command) (tables tables' : Tables)
    (answer : Response) : Prop where
  sound : Sound tables'
  released : Released C call tables command answer
  accepted : Accepted call tables tables' command
  audit : tables'.audit ++ [⟨call.who.principal, call.who.key, command.subjectEntry, command.action,
    .allowed, command.target⟩] = tables.audit ++ events call command (.ok answer)

/-- **The body of each operation.** -/
theorem body_ok {answer : Response} (hsound : Sound tables)
    (h : body C call tables command = .ok (tables', answer)) :
    Settled C call command tables tables' answer := by
  cases command with
  | list offset limit =>
    simp only [body, bind_eq_ok, pure_eq_ok, Prod.mk.injEq] at h
    obtain ⟨_, _, rfl, rfl⟩ := h
    exact ⟨hsound, rfl, ⟨rfl, rfl⟩, rfl⟩
  | get entry =>
    simp only [body, bind_eq_ok, pure_eq_ok, Prod.mk.injEq] at h
    obtain ⟨key, _, answer', hget, rfl, rfl⟩ := h
    obtain ⟨metadata, value, rfl, hreads⟩ := get_ok hget
    exact ⟨hsound, ⟨key, hreads⟩, ⟨rfl, rfl⟩, rfl⟩
  | put entry command =>
    simp only [body, bind_eq_ok, pure_eq_ok, Prod.mk.injEq] at h
    obtain ⟨key, _, ⟨tables₁, metadata⟩, hput, rfl, rfl⟩ := h
    obtain ⟨hsound', hput, _⟩ := put_ok hsound hput
    refine ⟨hsound', rfl, ?_, ?_⟩
    · exact ⟨hput.row, hput.others, hput.usable, hput.people, hput.auditors, hput.denials, rfl⟩
    · rw [hput.audit]
      rfl
  | grants entry =>
    simp only [body, bind_eq_ok, pure_eq_ok, Prod.mk.injEq] at h
    obtain ⟨_, _, _, _, answer', hanswer, rfl, rfl⟩ := h
    exact ⟨hsound, grantsAnswer_secret hanswer, ⟨rfl, rfl⟩, rfl⟩
  | grant entry command =>
    simp only [body, bind_eq_ok] at h
    obtain ⟨_, _, hgrant⟩ := h
    obtain ⟨hsound', hframe, _, _, hchanged⟩ := grant_ok hsound hgrant
    refine ⟨hsound', grant_secret hgrant, hchanged, ?_⟩
    rw [hframe.audit]
    rfl
  | auditors offset limit =>
    simp only [body, bind_eq_ok, pure_eq_ok, Prod.mk.injEq] at h
    obtain ⟨_, _, answer', hanswer, rfl, rfl⟩ := h
    unfold auditors at hanswer
    simp only [bind_eq_ok] at hanswer
    obtain ⟨_, _, hanswer⟩ := hanswer
    rw [pure_eq_ok] at hanswer
    exact ⟨hsound, hanswer ▸ rfl, ⟨rfl, rfl⟩, rfl⟩
  | auditor key change =>
    simp only [body, bind_eq_ok] at h
    obtain ⟨_, _, hauditor⟩ := h
    obtain ⟨hsecret, auditors, rfl⟩ := auditor_ok hauditor
    exact ⟨⟨hsound.ids, hsound.names⟩, hsecret, ⟨rfl, rfl⟩, rfl⟩
  | delete entry version =>
    simp only [body, bind_eq_ok] at h
    obtain ⟨_, _, hdelete⟩ := h
    obtain ⟨hsound', hframe, _, hdenied, hchanged⟩ := delete_ok hsound hdelete
    refine ⟨hsound', delete_secret hdelete, ⟨hchanged, hdenied⟩, ?_⟩
    rw [hframe.audit]
    rfl
  | exportArchive entries recovery =>
    simp only [body, bind_eq_ok] at h
    obtain ⟨key, _, hexport⟩ := h
    obtain ⟨⟨ciphertext, rfl, hseals⟩, rfl⟩ := exportArchive_ok hexport
    refine ⟨⟨hsound.ids, hsound.names⟩, ⟨key, hseals⟩, ⟨rfl, rfl⟩, ?_⟩
    exact List.append_assoc _ _ _
  | importArchive recovery archive =>
    simp only [body, bind_eq_ok] at h
    obtain ⟨_, _, himport⟩ := h
    obtain ⟨hsound', himported⟩ := importArchive_ok hsound himport
    refine ⟨hsound', importArchive_secret himport, ?_, ?_⟩
    · exact ⟨himported.kept, himported.added, ⟨himported.frame.people, rfl⟩, himported.auditors,
        himported.denials⟩
    · rw [himported.frame.audit]
      rfl

/-- **Every operation is accountable**, and keeps the tables sound. -/
theorem operate_accountable (hsound : Sound tables) (call : Call) (command : Command) :
    Sound (operate C call command tables).1 ∧
      Accountable C call command tables (operate C call command tables).1
        (operate C call command tables).2 := by
  unfold operate
  split
  · rename_i failure hadmitted
    refine ⟨hsound, fun answer h => (nomatch h), ?_, fun _ _ => rfl, fun answer h => (nomatch h)⟩
    rw [if_neg (by rw [hadmitted]; exact fun h => nomatch h)]
    exact ⟨rfl, failure, rfl⟩
  · rename_i hadmitted
    dsimp only
    split
    · rename_i tables₁ answer hbody
      have hsettled := body_ok hsound hbody
      refine ⟨⟨hsettled.sound.ids, hsettled.sound.names⟩, ?_, ?_, fun failure h => (nomatch h), ?_⟩
      · intro answer' h
        cases h
        exact hsettled.released
      · rw [if_pos hadmitted]
        exact hsettled.audit
      · intro answer' _
        have haccepted := hsettled.accepted
        cases command with
        | grant entry change => exact ⟨haccepted.row, haccepted.others⟩
        | delete entry version => exact ⟨⟨haccepted.1.row, haccepted.1.others⟩, haccepted.2⟩
        | _ => exact haccepted
    · rename_i failure hbody
      refine ⟨⟨hsound.ids, hsound.names⟩, fun answer h => (nomatch h), ?_, ?_,
        fun answer h => (nomatch h)⟩
      · rw [if_pos hadmitted]
        rfl
      · intro failure' _
        rfl

/-! ### Runs -/

/-- What happens to the tables: an operation, a change of people, keys and sessions, or
    grants that are retired. -/
inductive Step where
  | operate (call : Call) (command : Command)
  | people (people : People)
  | retire (keep : Grant → Bool)

def Step.next (C : Crypto) (tables : Tables) : Step → Tables
  | .operate call command => (Vault.operate C call command tables).1
  | .people registered => { tables with people := registered }
  | .retire keep => { tables with grants := tables.grants.filter keep }

/-- A new vault. -/
def machine (C : Crypto) (people : People) : Machine Tables Step :=
  ⟨⟨people, [], [], [], [], []⟩, Step.next C⟩

theorem sound_next (hsound : Sound tables) (step : Step) : Sound (step.next C tables) := by
  cases step with
  | operate call command => exact (operate_accountable hsound call command).1
  | people people => exact ⟨hsound.ids, hsound.names⟩
  | retire keep => exact ⟨hsound.ids, hsound.names⟩

theorem sound_run (people : People) (steps : List Step) : Sound ((machine C people).run steps) :=
  (machine C people).run_invariant Sound (fun _ => True)
    ⟨List.nodup_nil, fun _ h => absurd h List.not_mem_nil⟩ (fun _ step _ h => sound_next h step) steps
    (fun _ _ => trivial)

/-- **A deleted identifier stays deleted.** -/
theorem deleted_next (hsound : Sound tables) (step : Step) (hdeleted : tables.Deleted entry) :
    (step.next C tables).Deleted entry := by
  cases step with
  | people people => exact hdeleted
  | retire keep => exact hdeleted
  | operate call command =>
    obtain ⟨row, hrow, hlive⟩ := hdeleted
    have haccountable := (@operate_accountable C tables hsound call command).2
    dsimp only [Step.next]
    generalize (operate C call command tables).1 = tables' at haccountable ⊢
    cases hresult : (operate C call command tables).2 with
    | error failure =>
      rw [haccountable.undone failure hresult]
      exact ⟨row, hrow, hlive⟩
    | ok answer =>
      have haccepted := haccountable.accepted answer hresult
      have hother : ∀ {changed : Uuid} {f : Entry → Entry}, Changed tables tables' changed f →
          tables'.Deleted entry := by
        intro changed f hchanged
        obtain ⟨found, hfound, hfoundLive, _⟩ := hchanged.row
        have hne : entry ≠ changed := by
          rintro rfl
          rw [hrow, Option.some.injEq] at hfound
          rw [hfound, hfoundLive] at hlive
          cases hlive
        exact ⟨row, (hchanged.others entry hne).trans hrow, hlive⟩
      have hsame : tables'.entries = tables.entries → tables'.Deleted entry := by
        intro hentries
        refine ⟨row, ?_, hlive⟩
        unfold Tables.find
        rw [hentries]
        exact hrow
      cases command with
      | put changed _ =>
        have hne : entry ≠ changed := by
          rintro rfl
          exact haccepted.usable ⟨row, hrow, hlive⟩
        exact ⟨row, (haccepted.others entry hne).trans hrow, hlive⟩
      | grant changed _ => exact hother haccepted
      | delete changed _ => exact hother haccepted.1
      | importArchive _ _ => exact ⟨row, haccepted.kept entry row hrow, hlive⟩
      | list _ _ => exact hsame haccepted.1
      | get _ => exact hsame haccepted.1
      | grants _ => exact hsame haccepted.1
      | auditors _ _ => exact hsame haccepted.1
      | auditor _ _ => exact hsame haccepted.1
      | exportArchive _ _ => exact hsame haccepted.1

/-- No value of a deleted entry is read. -/
theorem not_reads_of_deleted (hsound : Sound tables) (hdeleted : tables.Deleted entry)
    {key : VaultKey} {value : String} : ¬Reads C call key tables entry value := by
  rintro ⟨row, hreadable, _⟩
  obtain ⟨dead, hdead, hnotLive⟩ := hdeleted
  have hfind := find_of_mem hsound.ids hreadable.mem
  rw [hreadable.id, hdead, Option.some.injEq] at hfind
  rw [hfind, hreadable.live] at hnotLive
  cases hnotLive

/-- **Vault access is authorised, audited and atomic.**  In every run from a new vault each
    operation is accountable, live names are unique, and an entry that was deleted stays
    deleted and yields no value again. -/
theorem vault_access_is_accountable (C : Crypto) (people : People) (steps : List Step) :
    (∀ call command, Accountable C call command ((machine C people).run steps)
      (operate C call command ((machine C people).run steps)).1
      (operate C call command ((machine C people).run steps)).2) ∧
    (∀ a ∈ ((machine C people).run steps).entries, ∀ b ∈ ((machine C people).run steps).entries,
      a.live = true → b.live = true → a.name = b.name → a.id = b.id) ∧
    ∀ entry, ((machine C people).run steps).Deleted entry → ∀ later,
      ((machine C people).run (steps ++ later)).Deleted entry ∧
      ∀ call key value, ¬Reads C call key ((machine C people).run (steps ++ later)) entry value := by
  refine ⟨fun call command => (operate_accountable (sound_run people steps) call command).2, ?_, ?_⟩
  · intro a ha b hb halive hblive hname
    exact congrArg Entry.id ((sound_run people steps).names a ha b hb halive hblive hname)
  · intro entry hdeleted later
    have hlater : ((machine C people).run (steps ++ later)).Deleted entry := by
      refine ((machine C people).run_extends Sound
        (fun before after => before.Deleted entry → after.Deleted entry) (fun _ h => h)
        (fun _ _ _ h h' hd => h' (h hd)) (sound_run people []) ?_ steps later).2 hdeleted
      intro tables step hsound
      exact ⟨sound_next hsound step, deleted_next hsound step⟩
    exact ⟨hlater, fun call key value => not_reads_of_deleted (sound_run people _) hlater⟩

end Mnemion.Vault
