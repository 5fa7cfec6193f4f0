/-
  Mnemion/CapturePause.lean
  =========================
  **A dropped fence keeps capture paused.**  A fence that reached the inbox is denied, or
  the inbox is paused and its sweep has still to come to it (`Tracked`); so the pause ends
  with a whole sweep, and an inbox that admits an event has every fence it ever was
  given (`fences_pause`).
-/
import Mnemion.CaptureSweep

namespace Mnemion.Capture

open Outcome PythonText

variable {χ π : Type}

/-! ### Steps -/

section

variable (inbox : Inbox) (w : SweepState χ π)

/-- `forget` raises `capture_fence_capacity`. -/
def SweepState.forgetDrops : SweepStep χ π → Prop
  | .call (.forget call lineage) =>
    (Capture.forget inbox call w.inbox lineage).2 = .error .captureFenceCapacity
  | _ => False

/-- `apply_fences` answers `False` to the service's page. -/
def SweepState.pageDrops : SweepStep χ π → Prop
  | .call (.applyFences call value) => w.answered inbox value = true ∧
    ∃ s', Capture.applyFences inbox call w.inbox value = .ok (s', false)
  | _ => False

/-- `apply_fences` retains the last page of a sweep. -/
def SweepState.completes : SweepStep χ π → Prop
  | .call (.applyFences call value) => w.answered inbox value = true ∧ value.nextCursor = none ∧
    ∃ s', Capture.applyFences inbox call w.inbox value = .ok (s', true)
  | _ => False

/-- The cursor of the sweep is not yet behind the lineage. -/
def SweepState.Ahead (lineage : String) : Prop :=
  ∀ cursor, fenceCursor inbox w.inbox = .ok (some cursor) → cursor < utf8 lineage

/-- What every step keeps: a fence that was delivered is denied, or the inbox is paused
    and the sweep has still to come to it. -/
structure Tracked : Prop where
  sound : Sound inbox w.inbox
  texts : ∀ l ∈ w.denied, lineageText l = true
  cursor : ∃ cursor, fenceCursor inbox w.inbox = .ok cursor
  blocked : ∃ blocked, fenceHistoryBlocked inbox w.inbox = .ok blocked
  owed : ∀ l ∈ w.delivered, l ∉ w.inbox.denials →
    fenceHistoryBlocked inbox w.inbox = .ok true ∧ l ∈ w.denied ∧ w.Ahead inbox l

/-- **What a step can do.** -/
inductive Moved (w' : SweepState χ π) (step : SweepStep χ π) : Prop where
  | quiet (pause : SamePause w.inbox w'.inbox) (denials : ∀ l ∈ w.inbox.denials, l ∈ w'.inbox.denials)
      (denied : ∀ l ∈ w.denied, l ∈ w'.denied) (texts : ∀ l ∈ w'.denied, lineageText l = true)
      (delivered : ∀ l ∈ w'.delivered, l ∈ w.delivered ∨ l ∈ w'.inbox.denials)
      (forgets : ¬ w.forgetDrops inbox step) (drops : ¬ w.pageDrops inbox step)
      (completes : ¬ w.completes inbox step)
  | swept (cursor : Option Bytes) (read : fenceCursor inbox w.inbox = .ok cursor) (retained : Bool)
      (applied : Applied inbox w.inbox w'.inbox (serverFences w.denied cursor FENCE_LIMIT) retained)
      (denied : w'.denied = w.denied)
      (delivered : w'.delivered = w.delivered ++ (serverFences w.denied cursor FENCE_LIMIT).items)
      (forgets : ¬ w.forgetDrops inbox step)
      (drops : w.pageDrops inbox step ↔ retained = false)
      (completes : w.completes inbox step ↔
        retained = true ∧ (serverFences w.denied cursor FENCE_LIMIT).nextCursor = none)
  | forgot (blocked : fenceHistoryBlocked inbox w'.inbox = .ok true)
      (cursor : fenceCursor inbox w'.inbox = .ok none) (denials : w'.inbox.denials = w.inbox.denials)
      (denied : w'.denied = w.denied)
      (delivered : ∀ l ∈ w'.delivered, l ∈ w.delivered ∨ l ∈ w.denied)
      (forgets : w.forgetDrops inbox step) (drops : ¬ w.pageDrops inbox step)
      (completes : ¬ w.completes inbox step)

end

section

variable {inbox : Inbox} {w : SweepState χ π}

theorem forget_moved (hinbox : inbox.Faithful) (h : Tracked inbox w) (call : Call χ) (lineage : String) :
    Moved inbox w (w.next inbox (.call (.forget call lineage))) (.call (.forget call lineage)) := by
  have hmember : ∀ l ∈ (w.next inbox (.call (.forget call lineage))).delivered,
      l ∈ w.delivered ∨ l ∈ w.denied ∧ l = lineage := by
    intro l hl
    simp only [SweepState.next] at hl
    split at hl
    · next hmem =>
      rcases List.mem_append.mp hl with hl | hl
      · exact Or.inl hl
      · rw [List.mem_singleton] at hl
        exact Or.inr ⟨hl ▸ hmem, hl⟩
    · exact Or.inl hl
  have hnext : (w.next inbox (.call (.forget call lineage))).inbox =
      (Capture.forget inbox call w.inbox lineage).1 := rfl
  by_cases htext : lineageText lineage = true
  · cases hdeny : deny call w.inbox lineage with
    | some t =>
      have hforget : Capture.forget inbox call w.inbox lineage = (t, .ok ()) := by
        rw [Capture.forget, if_pos htext, hdeny]
      rw [hforget] at hnext
      have hd := deny_eq_some hdeny
      refine .quiet ?_ ?_ (fun l hl => hl) h.texts (fun l hl => ?_) ?_ id id
      · rw [hnext]
        exact deny_samePause hdeny
      · rw [hnext]
        exact fun l hl => (hd.denials l).mpr (Or.inl hl)
      · rw [hnext]
        rcases hmember l hl with hl | ⟨-, rfl⟩
        · exact Or.inl hl
        · exact Or.inr ((hd.denials _).mpr (Or.inr rfl))
      · rw [SweepState.forgetDrops, hforget]
        exact nofun
    | none =>
      have hforget : Capture.forget inbox call w.inbox lineage =
          ({ blockFences inbox call w.inbox true with fenceScan := none },
            .error .captureFenceCapacity) := by
        rw [Capture.forget, if_pos htext, hdeny]
      rw [hforget] at hnext
      refine .forgot ?_ ?_ ?_ rfl (fun l hl => (hmember l hl).imp_right And.left) ?_ id id
      · rw [hnext]
        exact blocked_blockFences (s := w.inbox) hinbox true
      · rw [hnext]
        rfl
      · rw [hnext]
        rfl
      · rw [SweepState.forgetDrops, hforget]
  · have hforget : Capture.forget inbox call w.inbox lineage = (w.inbox, .error .captureFenceInvalid) := by
      rw [Capture.forget, if_neg htext]
    rw [hforget] at hnext
    refine .quiet ?_ ?_ (fun l hl => hl) h.texts (fun l hl => ?_) ?_ id id
    · rw [hnext]
      exact ⟨rfl, rfl⟩
    · rw [hnext]
      exact fun l hl => hl
    · rcases hmember l hl with hold | ⟨hmem, rfl⟩
      · exact Or.inl hold
      · exact absurd (h.texts _ hmem) htext
    · rw [SweepState.forgetDrops, hforget]
      exact nofun

theorem applyFences_moved (hinbox : inbox.Faithful) (h : Tracked inbox w) (call : Call χ)
    (value : FencePage) :
    Moved inbox w (w.next inbox (.call (.applyFences call value))) (.call (.applyFences call value)) := by
  by_cases hanswered : w.answered inbox value = true
  · obtain ⟨cursor, hcursor, rfl⟩ := SweepState.answered_iff.mp hanswered
    obtain ⟨blocked, hblocked⟩ := h.blocked
    obtain ⟨s', retained, happly, happlied⟩ := @applyFences_answer χ π inbox call _ hinbox _ _ h.texts hcursor _ hblocked
    have hnext : w.next inbox (.call (.applyFences call (serverFences w.denied cursor FENCE_LIMIT))) =
        { w with
          inbox := s'
          delivered := w.delivered ++ (serverFences w.denied cursor FENCE_LIMIT).items } := by
      simp only [SweepState.next, InboxState.next, happly]
      rw [if_pos hanswered]
    rw [hnext]
    refine .swept cursor hcursor retained happlied rfl rfl id ?_ ?_
    · rw [SweepState.pageDrops, happly]
      simp [hanswered]
    · rw [SweepState.completes, happly]
      simp [hanswered, and_comm]
  · have hnext : w.next inbox (.call (.applyFences call value)) = w := if_neg hanswered
    rw [hnext]
    refine .quiet ⟨rfl, rfl⟩ (fun l hl => hl) (fun l hl => hl) h.texts (fun l hl => Or.inl hl) id ?_ ?_
    · exact fun hdrops => hanswered hdrops.1
    · exact fun hcompletes => hanswered hcompletes.1

/-- Every step does one of the three. -/
theorem step_moved (hinbox : inbox.Faithful) (h : Tracked inbox w) (step : SweepStep χ π) :
    Moved inbox w (w.next inbox step) step := by
  cases step with
  | deny lineage =>
    simp only [SweepState.next]
    split
    · next htext =>
      refine .quiet ⟨rfl, rfl⟩ (fun l hl => hl) (fun l hl => List.mem_append_left _ hl) (fun l hl => ?_)
        (fun l hl => Or.inl hl) id id id
      rcases List.mem_append.mp hl with hl | hl
      · exact h.texts l hl
      · rw [List.mem_singleton] at hl
        rwa [hl]
    · exact .quiet ⟨rfl, rfl⟩ (fun l hl => hl) (fun l hl => hl) h.texts (fun l hl => Or.inl hl) id id id
  | call operation =>
    have hsound := next_sound hinbox h.sound operation
    cases operation with
    | applyFences call value => exact applyFences_moved hinbox h call value
    | forget call lineage => exact forget_moved hinbox h call lineage
    | acknowledge call receipt =>
      simp only [SweepState.next]
      cases hok : Capture.acknowledge inbox call w.inbox receipt with
      | error error =>
        exact .quiet ⟨rfl, rfl⟩ (fun l hl => hl) (fun l hl => hl) h.texts (fun l hl => Or.inl hl) id id id
      | ok t =>
        obtain ⟨hpause, hforgotten⟩ := acknowledge_forgotten hok
        refine .quiet hpause (acknowledge_sound h.sound hok).2 (fun l hl => hl) h.texts (fun l hl => ?_)
          id id id
        exact (List.mem_append.mp hl).imp_right (hforgotten l)
    | accept call scope events checkpoint verify =>
      refine .quiet ?_ hsound.2 (fun l hl => hl) h.texts (fun l hl => Or.inl hl) id id id
      simp only [SweepState.next, InboxState.next]
      split
      · next hok => exact accept_samePause hok
      · exact ⟨rfl, rfl⟩
    | page call =>
      refine .quiet ?_ hsound.2 (fun l hl => hl) h.texts (fun l hl => Or.inl hl) id id id
      simp only [SweepState.next, InboxState.next]
      split
      · next hok => exact nextPage_samePause hok
      · exact ⟨rfl, rfl⟩
    | interrupted =>
      exact .quiet ⟨rfl, rfl⟩ (fun l hl => hl) (fun l hl => hl) h.texts (fun l hl => Or.inl hl) id id id

/-! ### Runs -/

theorem next_inbox (step : SweepStep χ π) : (w.next inbox step).inbox = w.inbox ∨
    ∃ operation, (w.next inbox step).inbox = w.inbox.next inbox operation := by
  cases step with
  | deny lineage =>
    refine Or.inl ?_
    simp only [SweepState.next]
    split <;> rfl
  | call operation =>
    cases operation with
    | applyFences call value =>
      simp only [SweepState.next]
      split
      · exact Or.inr ⟨.applyFences call value, rfl⟩
      · exact Or.inl rfl
    | acknowledge call receipt =>
      refine Or.inr ⟨.acknowledge call receipt, ?_⟩
      simp only [SweepState.next, InboxState.next]
      cases Capture.acknowledge inbox call w.inbox receipt <;> rfl
    | accept call scope events checkpoint verify =>
      exact Or.inr ⟨.accept call scope events checkpoint verify, rfl⟩
    | page call => exact Or.inr ⟨.page call, rfl⟩
    | forget call lineage => exact Or.inr ⟨.forget call lineage, rfl⟩
    | interrupted => exact Or.inl rfl

/-- A fence the sweep still had to come to is denied after a step, or still ahead. -/
theorem Applied.ahead {s' : InboxState χ π} (h : Tracked inbox w) {cursor : Option Bytes}
    (hread : fenceCursor inbox w.inbox = .ok cursor) {retained : Bool}
    (happlied : Applied inbox w.inbox s' (serverFences w.denied cursor FENCE_LIMIT) retained)
    {lineage : String} (hmem : lineage ∈ w.denied) (hahead : w.Ahead inbox lineage) :
    lineage ∈ s'.denials ∨ (∀ c, fenceCursor inbox s' = .ok (some c) → c < utf8 lineage) ∧
      (retained = true → (serverFences w.denied cursor FENCE_LIMIT).nextCursor ≠ none) := by
  have hbehind : lineage ∈ behind w.denied cursor := by
    refine mem_behind.mpr ⟨hmem, fun c hc => hahead c ?_⟩
    rw [hread, hc]
  cases retained with
  | false =>
    refine Or.inr ⟨fun c hc => ?_, nofun⟩
    rw [(happlied.dropped rfl).1] at hc
    exact hahead c hc
  | true =>
    obtain ⟨hitems, hcursor, -⟩ := happlied.kept rfl
    by_cases hin : lineage ∈ (serverFences w.denied cursor FENCE_LIMIT).items
    · exact Or.inl (hitems lineage hin)
    · obtain ⟨last, hlast, hlt⟩ := serverFences_rest (by decide) hbehind hin
      refine Or.inr ⟨fun c hc => ?_, fun _ => ?_⟩
      · rw [hcursor, hlast] at hc
        cases hc
        refine utf8_lt (h.texts last ?_) (h.texts lineage hmem) hlt
        rcases @serverFences_last w.denied cursor FENCE_LIMIT (by decide) with
          hnone | ⟨-, hitem⟩
        · rw [hnone] at hlast
          cases hlast
        · rw [hitem] at hlast
          exact (mem_serverFences (List.mem_of_getLast? hlast)).1
      · rw [hlast]
        exact nofun

theorem Tracked.next (hinbox : inbox.Faithful) (h : Tracked inbox w) (step : SweepStep χ π) :
    Tracked inbox (w.next inbox step) := by
  have hsound : Sound inbox (w.next inbox step).inbox := by
    have hinbox : (w.next inbox step).inbox = w.inbox ∨
        ∃ operation, (w.next inbox step).inbox = w.inbox.next inbox operation := next_inbox step
    rcases hinbox with hsame | ⟨operation, hsame⟩
    · rw [hsame]
      exact h.sound
    · rw [hsame]
      exact (next_sound hinbox h.sound operation).1
  cases step_moved hinbox h step with
  | quiet hpause hdenials hdenied htexts hdelivered _ _ _ =>
    refine ⟨hsound, htexts, ?_, ?_, fun l hl hout => ?_⟩
    · rw [hpause.cursor]
      exact h.cursor
    · rw [hpause.blocked]
      exact h.blocked
    · have hold : l ∉ w.inbox.denials := fun hmem => hout (hdenials l hmem)
      obtain ⟨hblocked, hmem, hahead⟩ := h.owed l ((hdelivered l hl).resolve_right hout) hold
      refine ⟨hpause.blocked.trans hblocked, hdenied l hmem, fun c hc => hahead c ?_⟩
      rw [← hc, hpause.cursor]
  | swept cursor hread retained happlied hdenied hdelivered _ _ _ =>
    refine ⟨hsound, hdenied ▸ h.texts, ?_, ?_, fun l hl hout => ?_⟩
    · cases retained with
      | true => exact ⟨_, (happlied.kept rfl).2.1⟩
      | false => exact ⟨_, (happlied.dropped rfl).1.trans hread⟩
    · cases retained with
      | true =>
        rw [(happlied.kept rfl).2.2]
        split
        · exact ⟨_, rfl⟩
        · exact h.blocked
      | false => exact ⟨_, (happlied.dropped rfl).2⟩
    · have hold : l ∉ w.inbox.denials := fun hmem => hout (happlied.denials l hmem)
      rw [hdelivered] at hl
      have hknown : l ∈ w.denied ∧ w.Ahead inbox l := by
        rcases List.mem_append.mp hl with hl | hl
        · exact (h.owed l hl hold).2
        · obtain ⟨hmem, hlt⟩ := mem_serverFences hl
          refine ⟨hmem, fun c hc => hlt c ?_⟩
          rw [hread] at hc
          exact Option.mem_def.mpr (Except.ok.inj hc)
      have hahead := (happlied.ahead h hread hknown.1 hknown.2).resolve_left hout
      refine ⟨?_, hdenied ▸ hknown.1, hahead.1⟩
      cases retained with
      | false => exact (happlied.dropped rfl).2
      | true =>
        obtain ⟨hitems, -, hblocked⟩ := happlied.kept rfl
        rw [hblocked, if_neg (hahead.2 rfl)]
        rcases List.mem_append.mp hl with hl | hl
        · exact (h.owed l hl hold).1
        · exact absurd (hitems l hl) hout
  | forgot hblocked hcursor hdenials hdenied hdelivered _ _ _ =>
    refine ⟨hsound, hdenied ▸ h.texts, ⟨_, hcursor⟩, ⟨_, hblocked⟩, fun l hl hout => ?_⟩
    have hahead : ∀ c, fenceCursor inbox (w.next inbox step).inbox = .ok (some c) → c < utf8 l := by
      intro c hc
      rw [hcursor] at hc
      cases hc
    refine ⟨hblocked, ?_, hahead⟩
    rw [hdenied]
    rcases hdelivered l hl with hl | hl
    · exact (h.owed l hl (hdenials ▸ hout)).2.1
    · exact hl

theorem tracked_start (coverage : χ) (producer : π) :
    Tracked inbox (sweepMachine inbox coverage producer).init where
  sound := sound_create coverage producer
  texts _ hl := nomatch hl
  cursor := ⟨none, rfl⟩
  blocked := ⟨false, rfl⟩
  owed _ hl := nomatch hl

theorem tracked_run (hinbox : inbox.Faithful) (coverage : χ) (producer : π)
    (steps : List (SweepStep χ π)) : Tracked inbox ((sweepMachine inbox coverage producer).run steps) :=
  (sweepMachine inbox coverage producer).run_invariant (Tracked inbox) (fun _ => True)
    (tracked_start coverage producer) (fun _ step _ h => h.next hinbox step) steps (fun _ _ => trivial)

/-! ### The pause ends with a whole sweep -/

theorem Tracked.cursor_none (hinbox : inbox.Faithful) (h : Tracked inbox w) {step : SweepStep χ π}
    (hstep : w.forgetDrops inbox step ∨ w.completes inbox step) :
    fenceCursor inbox (w.next inbox step).inbox = .ok none := by
  cases step_moved hinbox h step with
  | quiet _ _ _ _ _ hforgets _ hcompletes => exact (hstep.elim hforgets hcompletes).elim
  | swept cursor hread retained happlied hdenied hdelivered hforgets _ hcompletes =>
    obtain ⟨hretained, hlast⟩ := hcompletes.mp (hstep.resolve_left hforgets)
    rw [(happlied.kept hretained).2.1, hlast]
    rfl
  | forgot _ hcursor _ _ _ _ _ _ => exact hcursor

/-- A fence of the service is denied after a step, or the sweep has still to come to it,
    unless the step ended the sweep. -/
theorem Tracked.covers (hinbox : inbox.Faithful) (h : Tracked inbox w) {step : SweepStep χ π}
    (hforgets : ¬ w.forgetDrops inbox step) {l : String}
    (hl : l ∈ w.inbox.denials ∨ l ∈ w.denied ∧ w.Ahead inbox l) :
    l ∈ (w.next inbox step).inbox.denials ∨ ¬ w.completes inbox step ∧
      l ∈ (w.next inbox step).denied ∧ (w.next inbox step).Ahead inbox l := by
  cases step_moved hinbox h step with
  | quiet hpause hdenials hdenied _ _ _ _ hcompletes =>
    rcases hl with hl | ⟨hmem, hahead⟩
    · exact Or.inl (hdenials l hl)
    · refine Or.inr ⟨hcompletes, hdenied l hmem, fun c hc => hahead c ?_⟩
      rw [← hc, hpause.cursor]
  | swept cursor hread retained happlied hdenied _ _ _ hcompletes =>
    rcases hl with hl | ⟨hmem, hahead⟩
    · exact Or.inl (happlied.denials l hl)
    · rcases happlied.ahead h hread hmem hahead with hin | ⟨hrest, hmore⟩
      · exact Or.inl hin
      · refine Or.inr ⟨fun hends => ?_, hdenied ▸ hmem, hrest⟩
        obtain ⟨hretained, hlast⟩ := hcompletes.mp hends
        exact hmore hretained hlast
  | forgot _ _ _ _ _ hdrops _ _ => exact absurd hdrops hforgets

theorem Tracked.stays_blocked (hinbox : inbox.Faithful) (h : Tracked inbox w) {step : SweepStep χ π}
    (hblocked : fenceHistoryBlocked inbox w.inbox = .ok true) (hcompletes : ¬ w.completes inbox step) :
    fenceHistoryBlocked inbox (w.next inbox step).inbox = .ok true := by
  cases step_moved hinbox h step with
  | quiet hpause _ _ _ _ _ _ _ => exact hpause.blocked.trans hblocked
  | swept cursor _ retained happlied _ _ _ _ hends =>
    cases retained with
    | false => exact (happlied.dropped rfl).2
    | true =>
      rw [(happlied.kept rfl).2.2, if_neg fun hlast => hcompletes (hends.mpr ⟨rfl, hlast⟩)]
      exact hblocked
  | forgot hpaused _ _ _ _ _ _ _ => exact hpaused

theorem Tracked.drop_blocks (hinbox : inbox.Faithful) (h : Tracked inbox w) {step : SweepStep χ π}
    (hdrops : w.forgetDrops inbox step ∨ w.pageDrops inbox step) :
    fenceHistoryBlocked inbox (w.next inbox step).inbox = .ok true := by
  cases step_moved hinbox h step with
  | quiet _ _ _ _ _ hforgets hpage _ => exact (hdrops.elim hforgets hpage).elim
  | swept cursor _ retained happlied _ _ hforgets hpage _ =>
    exact (happlied.dropped (hpage.mp (hdrops.resolve_left hforgets))).2
  | forgot hpaused _ _ _ _ _ _ _ => exact hpaused

/-- `accept` may admit what it is offered. -/
def SweepState.Admits (inbox : Inbox) (w : SweepState χ π) : Prop :=
  ∃ call scope events checkpoint verify result,
    accept inbox call w.inbox scope events checkpoint verify = .ok result

theorem SweepState.Admits.unblocked (h : w.Admits inbox) :
    fenceHistoryBlocked inbox w.inbox = .ok false := by
  obtain ⟨call, scope, events, checkpoint, verify, result, hok⟩ := h
  simp only [accept, bind_eq_ok] at hok
  obtain ⟨_, _, fences, hfences, _, hcapacity, _⟩ := hok
  simp only [capacity, bind_eq_ok, check_eq_ok] at hcapacity
  obtain ⟨_, hfree, _⟩ := hcapacity
  simp only [fenceUsage, bind_eq_ok, pure_eq_ok] at hfences
  obtain ⟨blocked, hblocked, rfl⟩ := hfences
  rw [hblocked]
  exact congrArg _ hfree

end

/-! ### Whole runs -/

section

variable (inbox : Inbox) (coverage : χ) (producer : π)

/-- The steps from `start` on are one sweep so far: it began at the start of the list, no
    page has ended it, and `forget` has dropped nothing. -/
structure Sweeping (start tail : List (SweepStep χ π)) : Prop where
  begins : fenceCursor inbox ((sweepMachine inbox coverage producer).run start).inbox = .ok none
  undisturbed : (sweepMachine inbox coverage producer).MeetsFrom
    (fun w step => ¬ w.forgetDrops inbox step ∧ ¬ w.completes inbox step)
    ((sweepMachine inbox coverage producer).run start) tail

/-- A step ends a sweep of all that the service had denied when it began. -/
structure Completes (steps : List (SweepStep χ π)) (step : SweepStep χ π) : Prop where
  completes : ((sweepMachine inbox coverage producer).run steps).completes inbox step
  sweep : ∃ start tail, steps = start ++ tail ∧ Sweeping inbox coverage producer start tail ∧
    ∀ l ∈ ((sweepMachine inbox coverage producer).run start).denied,
      l ∈ ((sweepMachine inbox coverage producer).run (steps ++ [step])).inbox.denials
  retained : ∀ l ∈ ((sweepMachine inbox coverage producer).run (steps ++ [step])).delivered,
    l ∈ ((sweepMachine inbox coverage producer).run (steps ++ [step])).inbox.denials

end

section

variable {inbox : Inbox} {coverage : χ} {producer : π}

theorem meetsFrom_concat {σ α : Type*} (M : Machine σ α) {C : σ → α → Prop} {s : σ} {a : α} :
    ∀ {as : List α}, M.MeetsFrom C s as → C (as.foldl M.next s) a → M.MeetsFrom C s (as ++ [a])
  | [], _, ha => ⟨ha, trivial⟩
  | _ :: _, h, ha => ⟨h.1, meetsFrom_concat M h.2 ha⟩

theorem run_append {σ α : Type*} (M : Machine σ α) (as bs : List α) :
    M.run (as ++ bs) = bs.foldl M.next (M.run as) := List.foldl_append

/-- At any time a sweep is under way, if only one that has not begun. -/
theorem sweeping_run (hinbox : inbox.Faithful) (steps : List (SweepStep χ π)) :
    ∃ start tail, steps = start ++ tail ∧ Sweeping inbox coverage producer start tail ∧
      ∀ l ∈ ((sweepMachine inbox coverage producer).run start).denied,
        l ∈ ((sweepMachine inbox coverage producer).run steps).inbox.denials ∨
          l ∈ ((sweepMachine inbox coverage producer).run steps).denied ∧
            ((sweepMachine inbox coverage producer).run steps).Ahead inbox l := by
  have hfresh : ∀ steps : List (SweepStep χ π),
      fenceCursor inbox ((sweepMachine inbox coverage producer).run steps).inbox = .ok none →
      ∃ start tail, steps = start ++ tail ∧ Sweeping inbox coverage producer start tail ∧
        ∀ l ∈ ((sweepMachine inbox coverage producer).run start).denied,
          l ∈ ((sweepMachine inbox coverage producer).run steps).inbox.denials ∨
            l ∈ ((sweepMachine inbox coverage producer).run steps).denied ∧
              ((sweepMachine inbox coverage producer).run steps).Ahead inbox l := by
    intro steps hcursor
    refine ⟨steps, [], (List.append_nil _).symm, ⟨hcursor, trivial⟩, fun l hl => Or.inr ⟨hl, ?_⟩⟩
    intro c hc
    rw [hcursor] at hc
    cases hc
  induction steps using List.reverseRecOn with
  | nil => exact hfresh [] rfl
  | append_singleton steps step ih =>
    have htracked := tracked_run hinbox coverage producer steps
    have hnext : (sweepMachine inbox coverage producer).run (steps ++ [step]) =
        ((sweepMachine inbox coverage producer).run steps).next inbox step :=
      (sweepMachine inbox coverage producer).run_concat steps step
    by_cases hends : ((sweepMachine inbox coverage producer).run steps).forgetDrops inbox step ∨
        ((sweepMachine inbox coverage producer).run steps).completes inbox step
    · refine hfresh _ ?_
      rw [hnext]
      exact htracked.cursor_none hinbox hends
    · obtain ⟨start, tail, rfl, hsweeping, hcovers⟩ := ih
      refine ⟨start, tail ++ [step], List.append_assoc _ _ _, ⟨hsweeping.begins, ?_⟩, fun l hl => ?_⟩
      · apply meetsFrom_concat _ hsweeping.undisturbed
        rw [← run_append]
        exact not_or.mp hends
      · rw [hnext]
        exact (htracked.covers hinbox (fun hdrops => hends (Or.inl hdrops)) (hcovers l hl)).imp_right And.right

/-- Where no pause is set, every fence that was delivered is denied. -/
theorem Tracked.delivered {w : SweepState χ π} (h : Tracked inbox w)
    (hfree : fenceHistoryBlocked inbox w.inbox = .ok false) : ∀ l ∈ w.delivered, l ∈ w.inbox.denials := by
  intro l hl
  by_contra hout
  rw [(h.owed l hl hout).1] at hfree
  cases hfree

theorem completes_run (hinbox : inbox.Faithful) {steps : List (SweepStep χ π)} {step : SweepStep χ π}
    (h : ((sweepMachine inbox coverage producer).run steps).completes inbox step) :
    Completes inbox coverage producer steps step := by
  have htracked := tracked_run hinbox coverage producer steps
  have hnext : (sweepMachine inbox coverage producer).run (steps ++ [step]) =
      ((sweepMachine inbox coverage producer).run steps).next inbox step :=
    (sweepMachine inbox coverage producer).run_concat steps step
  refine ⟨h, ?_, ?_⟩
  · obtain ⟨start, tail, hsplit, hsweeping, hcovers⟩ := sweeping_run hinbox steps
    refine ⟨start, tail, hsplit, hsweeping, fun l hl => ?_⟩
    rw [hnext]
    cases step_moved hinbox htracked step with
    | quiet _ _ _ _ _ _ _ hcompletes => exact absurd h hcompletes
    | swept _ _ _ _ _ _ hforgets _ _ =>
      exact (htracked.covers hinbox hforgets (hcovers l hl)).resolve_right fun hmore => hmore.1 h
    | forgot _ _ _ _ _ _ _ hcompletes => exact absurd h hcompletes
  · apply Tracked.delivered (tracked_run hinbox coverage producer (steps ++ [step]))
    rw [hnext]
    cases step_moved hinbox htracked step with
    | quiet _ _ _ _ _ _ _ hcompletes => exact absurd h hcompletes
    | swept _ _ _ happlied _ _ _ _ hcompletes =>
      obtain ⟨hretained, hlast⟩ := hcompletes.mp h
      rw [(happlied.kept hretained).2.2, if_pos hlast]
    | forgot _ _ _ _ _ _ _ hcompletes => exact absurd h hcompletes

/-- **Dropped fences keep capture paused.**  After a fence was dropped an inbox admits
    something only where a whole sweep has ended since; and wherever it admits something,
    every fence it ever was given is in its denials. -/
theorem fences_pause (inbox : Inbox) (hinbox : inbox.Faithful) (coverage : χ) (producer : π) :
    (∀ before step later,
      (((sweepMachine inbox coverage producer).run before).forgetDrops inbox step ∨
        ((sweepMachine inbox coverage producer).run before).pageDrops inbox step) →
      ((sweepMachine inbox coverage producer).run (before ++ step :: later)).Admits inbox →
      ∃ middle last rest, later = middle ++ last :: rest ∧
        Completes inbox coverage producer (before ++ step :: middle) last) ∧
    ∀ steps, ((sweepMachine inbox coverage producer).run steps).Admits inbox →
      ∀ l ∈ ((sweepMachine inbox coverage producer).run steps).delivered,
        l ∈ ((sweepMachine inbox coverage producer).run steps).inbox.denials := by
  refine ⟨fun before step later hdrops hadmits => ?_, fun steps hadmits =>
    (tracked_run hinbox coverage producer steps).delivered hadmits.unblocked⟩
  have hunblocked := hadmits.unblocked
  clear hadmits
  induction later using List.reverseRecOn with
  | nil =>
    have hblocks := (tracked_run hinbox coverage producer before).drop_blocks hinbox hdrops
    rw [Machine.run_concat] at hunblocked
    exact absurd (hblocks.symm.trans hunblocked) nofun
  | append_singleton later last ih =>
    by_cases hcompletes :
        ((sweepMachine inbox coverage producer).run (before ++ step :: later)).completes inbox last
    · exact ⟨later, last, [], rfl, completes_run hinbox hcompletes⟩
    · have hbefore : fenceHistoryBlocked inbox
          ((sweepMachine inbox coverage producer).run (before ++ step :: later)).inbox = .ok false := by
        obtain ⟨blocked, hblocked⟩ := (tracked_run hinbox coverage producer (before ++ step :: later)).blocked
        cases blocked with
        | false => exact hblocked
        | true =>
          have hstays := (tracked_run hinbox coverage producer (before ++ step :: later)).stays_blocked
            hinbox hblocked hcompletes
          rw [← List.cons_append, ← List.append_assoc, Machine.run_concat] at hunblocked
          exact absurd (hstays.symm.trans hunblocked) nofun
      obtain ⟨middle, final, rest, rfl, hdone⟩ := ih hbefore
      exact ⟨middle, final, rest ++ [last], by simp, hdone⟩

end

/-! ### A run -/

def otherLineage : String := String.ofList (List.replicate 64 'c')

/-- A history of one fence. -/
def narrowCall : Call Unit := { sampleCall with limits := ⟨1, 65536, 1, 1, 1, by decide, by decide⟩ }

def sampleDenials : List (SweepStep Unit Unit) :=
  [.deny otherLineage, .deny sampleLineage, .call (.forget narrowCall sampleLineage)]

def sampleForget : SweepStep Unit Unit := .call (.forget narrowCall otherLineage)

def sampleSweep : List (SweepStep Unit Unit) :=
  [.call .interrupted, .call (.applyFences sampleCall ⟨[sampleLineage, otherLineage], none⟩)]

/-- The second fence is dropped, and a sweep under wider limits brings both. -/
theorem fences_pause_sample : ∃ middle last rest, sampleSweep = middle ++ last :: rest ∧
    Completes sampleInbox () () (sampleDenials ++ sampleForget :: middle) last := by
  apply (fences_pause sampleInbox sampleInbox_faithful () ()).1 sampleDenials sampleForget sampleSweep
  · exact Or.inl rfl
  · exact ⟨sampleCall, sampleScope, [], .ok (utf8 "\x7b\x7d"), fun q => .ok (true, q.1, q.2), _, rfl⟩

end Mnemion.Capture
