/-
  Mnemion/CaptureFairness.lean
  ============================
  **Every source has its turn.**  The schedule keeps how many scopes are left in a round and
  the last one that was started.  Over one catalog the scans follow its sorted order, round
  after round, wherever a pass ends; and the work a pass is given is what the round has not
  started yet.
-/
import Mnemion.CaptureAccounting
import Mnemion.Rotation
import Mathlib.Data.List.Dedup

namespace Mnemion.Coverage

open Outcome Assoc Capture Rotation

/-! ### Passes -/

/-- The passes over one catalog: the store, the rest of the work the pass was given, the
    scopes that were started, and those of the current round once one has begun. -/
structure Passes (Digest : Type) where
  store : Store Digest
  queue : List String
  log : List String
  round : Option (List String)

/-- A step of a pass.  A pass ends anywhere: the next `catalog` begins another. -/
inductive PassStep where
  | catalog (moment : Moment) (listed : List String)
  | start
  /-- Any other call in between. -/
  | other (call : Call)

/-- A call that is neither a scheduled catalog nor the start of a scan. -/
def Call.Unscheduled : Call → Prop
  | .catalog _ _ scheduled => scheduled = false
  | .scanStarted _ => False
  | _ => True

/-- The steps over a catalog, which may be listed in any order. -/
def PassStep.Over (scopes : List String) : PassStep → Prop
  | .catalog _ listed => listed.Perm scopes
  | .start => True
  | .other call => call.Unscheduled

section Passes

variable {Digest : Type} [DecidableEq Digest] (binding : Binding Digest)

/-- The round after a catalog. -/
def Passes.roundAfter (passes : Passes Digest) (listed : List String) : Option (List String) :=
  if passes.store.resets binding listed then some [] else passes.round

def Passes.next (passes : Passes Digest) : PassStep → Passes Digest
  | .catalog moment listed =>
    match passes.store.catalog binding moment listed true with
    | .ok (work, store) =>
      { passes with store := store, queue := work, round := passes.roundAfter binding listed }
    | .error _ => { passes with queue := [] }
  | .start =>
    match passes.queue with
    | [] => passes
    | scope :: rest =>
      match passes.store.scanStarted binding scope with
      | .ok store =>
        { store := store
          queue := rest
          log := passes.log ++ [scope]
          round := passes.round.map (· ++ [scope]) }
      | .error _ => { passes with queue := [] }
  | .other call => { passes with store := passes.store.next binding call }

/-- The passes from any stored schedule on. -/
def passMachine (store : Store Digest) : Machine (Passes Digest) PassStep where
  init := ⟨store, [], [], none⟩
  next := Passes.next binding

end Passes

/-! ### The schedule -/

section Schedule

variable {Digest : Type} {binding : Binding Digest} {moment : Moment} {store : Store Digest}
  {summary : CoverageFields}

/-- The last scope that was started. -/
def Store.lastScope (store : Store Digest) : Option String := store.schedule.bind (·.lastScope)

/-- Errors are not looked at here. -/
def Any (_ : CoverageError) : Prop := True

theorem ensures_any {α : Type} {P : α → Prop} {x : Except CoverageError α}
    (h : ∀ a, x = .ok a → P a) : Ensures Any P x := by
  cases x with
  | error error => exact trivial
  | ok a => exact h a rfl

theorem replace_schedule (scope : String) (before : Option PrefixObservation)
    (after : ObservationFields) :
    Ensures Any (fun result => result.1.schedule = store.schedule)
      (store.replace summary scope before after) := by
  unfold Store.replace
  exact (@ensures_any _ (fun _ => True) after.validate fun _ _ => trivial).bind fun _ _ => rfl

theorem finish_schedule :
    Ensures Any (fun store' => store'.schedule = store.schedule) (store.finish summary) := by
  unfold Store.finish
  exact (@ensures_any _ (fun _ => True) summary.validate fun _ _ => trivial).bind fun _ _ => rfl

theorem any_ensures {α : Type} (x : Except CoverageError α) : Ensures Any (fun _ => True) x :=
  ensures_any fun _ _ => trivial

/-- The listing of the scopes leaves the schedule alone. -/
theorem catalog_schedule [DecidableEq Digest] {scopes : List String} {scheduled : Bool} :
    Ensures Any (fun result => ∃ turned, store.planned binding scopes scheduled = .ok (result.1, turned) ∧
      result.2.schedule = turned.schedule) (store.catalog binding moment scopes scheduled) := by
  unfold Store.catalog
  refine (any_ensures _).bind fun _ _ => (any_ensures _).bind fun _ _ => ?_
  refine (ensures_any fun planned hplanned => hplanned).bind ?_
  rintro ⟨work, turned⟩ hplanned
  refine (any_ensures _).bind fun summary _ => ?_
  refine Ensures.bind (P := fun listing : Listing Digest => listing.store.schedule = turned.schedule)
    (ensures_foldlM (fun _ (listing : Listing Digest) => listing.store.schedule = turned.schedule) ?_ rfl)
    ?_
  · intro scope _ listing hlisting
    unfold catalogScope
    refine (any_ensures _).bind fun before _ => ?_
    exact (replace_schedule scope before _).bind fun _ hreplaced => hreplaced.trans hlisting
  · intro listing hlisting
    refine finish_schedule.bind fun finished hfinished => (any_ensures _).bind fun _ _ => ?_
    exact ⟨turned, hplanned, hfinished.trans hlisting⟩

/-- A scheduled catalog gives out the turn and saves its schedule. -/
theorem catalog_turn [DecidableEq Digest] {scopes work : List String} {store' : Store Digest}
    (h : store.catalog binding moment scopes true = .ok (work, store')) :
    ∃ schedule, store.turn binding scopes = .ok (work, schedule) ∧ store'.schedule = some schedule := by
  obtain ⟨turned, hplanned, hschedule⟩ := catalog_schedule.of_ok h
  unfold Store.planned at hplanned
  rw [if_pos rfl, bind_eq_ok] at hplanned
  obtain ⟨⟨work', schedule⟩, hturn, hpure⟩ := hplanned
  obtain ⟨rfl, rfl⟩ := Prod.mk.inj (pure_eq_ok.mp hpure)
  exact ⟨schedule, hturn, hschedule⟩

theorem scanStarted_schedule {scope : String} {store' : Store Digest}
    (h : store.scanStarted binding scope = .ok store') :
    ∃ schedule, store.schedule = some schedule ∧ schedule.remaining ≠ 0 ∧
      store'.schedule =
        some { schedule with lastScope := some scope, remaining := schedule.remaining - 1 } := by
  unfold Store.scanStarted at h
  obtain ⟨before, -, h⟩ := bind_eq_ok.mp h
  cases before with
  | none => cases h
  | some before =>
    cases hschedule : store.schedule with
    | none =>
      rw [hschedule] at h
      cases h
    | some schedule =>
      rw [hschedule] at h
      dsimp only at h
      obtain ⟨_, hremaining, h⟩ := bind_eq_ok.mp h
      obtain ⟨summary, -, h⟩ := bind_eq_ok.mp h
      obtain ⟨⟨replaced, summary'⟩, hreplace, hfinish⟩ := bind_eq_ok.mp h
      refine ⟨schedule, rfl, check_eq_ok.mp hremaining, ?_⟩
      rw [finish_schedule.of_ok hfinish]
      exact (replace_schedule _ _ _).of_ok hreplace

theorem summary_schedule {f : CoverageFields → CoverageFields} :
    Ensures Any (fun store' : Store Digest => store'.schedule = store.schedule)
      (store.readSummary binding >>= fun summary => store.finish (f summary)) :=
  (any_ensures _).bind fun _ _ => finish_schedule

/-- Every other call leaves the schedule alone. -/
theorem call_schedule [DecidableEq Digest] {call : Call} (hcall : call.Unscheduled) :
    Ensures Any (fun store' => store'.schedule = store.schedule) (store.call binding call) := by
  cases call with
  | catalog moment scopes scheduled =>
    obtain rfl : scheduled = false := hcall
    apply catalog_schedule.map
    rintro result ⟨turned, hplanned, hschedule⟩
    obtain ⟨-, rfl⟩ := Prod.mk.inj (Except.ok.inj hplanned)
    exact hschedule
  | scanStarted scope => exact hcall.elim
  | catalogUnavailable moment => exact summary_schedule
  | accepted moment scope checkpoint report =>
    show Ensures Any _ (store.accepted binding moment scope checkpoint report)
    unfold Store.accepted
    refine (any_ensures _).bind fun before _ => ?_
    cases report.observedSizeBytes with
    | none => exact trivial
    | some observed =>
      cases checkpoint.current with
      | none => exact trivial
      | some current =>
        dsimp only
        refine (any_ensures _).bind fun summary _ => ?_
        refine (replace_schedule scope before _).bind fun replaced hreplaced => ?_
        exact finish_schedule.bind fun finished hfinished => hfinished.trans hreplaced
  | failed scope report =>
    show Ensures Any _ (store.failed binding scope report)
    unfold Store.failed
    refine (any_ensures _).bind fun before _ => (any_ensures _).bind fun summary _ => ?_
    exact (replace_schedule scope before _).bind fun replaced hreplaced =>
      finish_schedule.mono fun _ hfinished => hfinished.trans hreplaced
  | queued moment previousBytes addedBytes =>
    show Ensures Any _ (store.queued binding moment previousBytes addedBytes)
    unfold Store.queued
    split
    · exact summary_schedule
    · rfl
  | acknowledged moment => exact summary_schedule
  | contacted moment => exact summary_schedule
  | indexUnavailable moment unsupported => exact summary_schedule
  | indexed moment page =>
    show Ensures Any _ ((·.1) <$> store.indexed binding moment page)
    refine Ensures.map (P := fun result : Store Digest × Bool => result.1.schedule = store.schedule)
      ?_ fun _ h => h
    unfold Store.indexed
    refine (any_ensures _).bind fun _ _ => (any_ensures _).bind fun summary _ =>
      (any_ensures _).bind fun _ _ => ?_
    split
    · exact finish_schedule.bind fun _ hfinished => hfinished
    · exact finish_schedule.bind fun _ hfinished => hfinished
  | older scope prior => rfl

theorem next_schedule [DecidableEq Digest] {call : Call} (hcall : call.Unscheduled) :
    (store.next binding call).schedule = store.schedule := by
  unfold Store.next
  split
  · rename_i next hnext
    exact (call_schedule hcall).of_ok hnext
  · rfl

end Schedule

/-! ### The order of the catalog -/

section Order

theorem sortedSet_sorted (scopes : List String) : (sortedSet scopes).Pairwise (· < ·) := by
  have hle : (sortedSet scopes).Pairwise (· ≤ ·) := List.pairwise_insertionSort _ _
  have hnodup : (sortedSet scopes).Nodup :=
    (List.perm_insertionSort _ _).nodup_iff.mpr (List.nodup_dedup scopes)
  exact (hle.and hnodup).imp fun h => lt_of_le_of_ne h.1 h.2

theorem sortedSet_perm {scopes : List String} (h : scopes.Nodup) : (sortedSet scopes).Perm scopes := by
  unfold sortedSet
  rw [List.dedup_eq_self.mpr h]
  exact List.perm_insertionSort _ _

/-- The order does not depend on how the catalog is listed. -/
theorem sortedSet_congr {listed scopes : List String} (h : listed.Perm scopes) :
    sortedSet listed = sortedSet scopes := by
  have hle : ∀ scopes, (sortedSet scopes).Pairwise (· ≤ ·) := fun _ => List.pairwise_insertionSort _ _
  apply List.Perm.eq_of_pairwise _ (hle listed) (hle scopes)
  · exact (List.perm_insertionSort _ _).trans (h.dedup.trans (List.perm_insertionSort _ _).symm)
  · exact fun a b _ _ hab hba => le_antisymm hab hba

/-- The scopes in turn are a rotation of the order. -/
theorem inTurn_eq (order : List String) (last : Option String) :
    inTurn order last = order.rotate (bisectRight order last) := by
  have hle : bisectRight order last ≤ order.length := by
    cases last with
    | none => exact Nat.zero_le _
    | some last => exact (List.takeWhile_prefix _).length_le
  exact (List.rotate_eq_drop_append_take hle).symm

/-- Behind a scope of the catalog comes the next one. -/
theorem inTurn_next {order : List String} (hsorted : order.Pairwise (· < ·)) {i : Nat} {last : String}
    (hlast : order[i]? = some last) : inTurn order (some last) = order.rotate (i + 1) := by
  rw [inTurn_eq, bisectRight, takeWhile_le hsorted hlast]

end Order

/-! ### Turns -/

section Turns

variable {Digest : Type} [DecidableEq Digest] {binding : Binding Digest} {store : Store Digest}

/-- What the schedule part of `catalog` gives out and saves. -/
structure Turn (binding : Binding Digest) (store : Store Digest) (listed : List String)
    (work : List String) (schedule : CaptureSchedule Digest) : Prop where
  work : work = (inTurn (sortedSet listed) store.lastScope).take schedule.remaining
  last : schedule.lastScope = store.lastScope
  remaining : schedule.remaining ≤ (sortedSet listed).length
  fresh : store.resets binding listed = true →
    schedule.catalog = binding.sha256 (sortedSet listed) ∧
      schedule.remaining = (sortedSet listed).length
  kept : store.resets binding listed = false → store.schedule = some schedule

theorem turn_spec {listed work : List String} {schedule : CaptureSchedule Digest}
    (h : store.turn binding listed = .ok (work, schedule)) :
    Turn binding store listed work schedule := by
  unfold Store.turn at h
  obtain ⟨_, hremaining, h⟩ := bind_eq_ok.mp h
  have hremaining := check_eq_ok.mp hremaining
  obtain ⟨rfl, rfl⟩ := Prod.mk.inj (pure_eq_ok.mp h)
  cases hresets : store.resets binding listed with
  | true =>
    rw [hresets, if_pos rfl] at hremaining
    exact ⟨rfl, rfl, hremaining, fun _ => ⟨rfl, rfl⟩, 
      fun h => Bool.noConfusion (hresets.symm.trans h)⟩
  | false =>
    cases hschedule : store.schedule with
    | none =>
      unfold Store.resets at hresets
      rw [hschedule] at hresets
      cases hresets
    | some schedule =>
      rw [hresets, hschedule] at hremaining
      have hlast : store.lastScope = schedule.lastScope := by
        rw [Store.lastScope, hschedule]
        rfl
      exact ⟨by rw [hlast]; rfl, hlast.symm, hremaining, 
        fun h => Bool.noConfusion (hresets.symm.trans h), fun _ => hschedule⟩

/-- **The passes follow the order** from a position on. -/
structure Turning (binding : Binding Digest) (order : List String) (start : Nat)
    (passes : Passes Digest) : Prop where
  follows : Follows order start passes.log
  turn : inTurn order passes.store.lastScope = order.rotate (start + passes.log.length)
  last : passes.log ≠ [] → passes.store.lastScope = passes.log.getLast?
  queue : passes.queue ≠ [] → ∃ schedule, passes.store.schedule = some schedule ∧
    schedule.remaining ≤ order.length ∧
      passes.queue = (order.rotate (start + passes.log.length)).take schedule.remaining
  round : ∀ round, passes.round = some round → round <:+ passes.log ∧
    ∃ schedule, passes.store.schedule = some schedule ∧
      schedule.catalog = binding.sha256 order ∧ round.length + schedule.remaining = order.length

variable {order : List String} {start : Nat} {passes : Passes Digest}

/-- What the next catalog makes of the round. -/
theorem roundAfter_spec (h : Turning binding order start passes) {listed work : List String}
    (hlisted : sortedSet listed = order) {schedule : CaptureSchedule Digest}
    (hturn : Turn binding passes.store listed work schedule) {round : List String}
    (hround : passes.roundAfter binding listed = some round) :
    round <:+ passes.log ∧ schedule.catalog = binding.sha256 order ∧
      round.length + schedule.remaining = order.length := by
  unfold Passes.roundAfter at hround
  cases hresets : passes.store.resets binding listed with
  | true =>
    rw [hresets, if_pos rfl] at hround
    obtain rfl := Option.some.inj hround
    obtain ⟨hcatalog, hremaining⟩ := hturn.fresh hresets
    rw [hlisted] at hcatalog hremaining
    exact ⟨List.nil_suffix, hcatalog, by rw [hremaining, List.length_nil, Nat.zero_add]⟩
  | false =>
    rw [hresets] at hround
    obtain ⟨hsuffix, schedule', hschedule, hcatalog, hlength⟩ := h.round round hround
    rw [hturn.kept hresets, Option.some_inj] at hschedule
    rw [hschedule]
    exact ⟨hsuffix, hcatalog, hlength⟩

theorem Turning.catalog (h : Turning binding order start passes) {listed work : List String}
    (hlisted : sortedSet listed = order) {moment : Moment} {store' : Store Digest}
    (hcatalog : passes.store.catalog binding moment listed true = .ok (work, store')) :
    Turning binding order start
      { passes with store := store', queue := work, round := passes.roundAfter binding listed } := by
  obtain ⟨schedule, hturn, hschedule⟩ := catalog_turn hcatalog
  have hspec := turn_spec hturn
  have hlast : store'.lastScope = passes.store.lastScope := by
    rw [Store.lastScope, hschedule]
    exact hspec.last
  refine ⟨h.follows, hlast ▸ h.turn, fun hlog => hlast.trans (h.last hlog), fun _ => ?_, ?_⟩
  · refine ⟨schedule, hschedule, hlisted ▸ hspec.remaining, ?_⟩
    show work = _
    rw [hspec.work, hlisted, h.turn]
  · intro round hround
    obtain ⟨hsuffix, hcatalog', hlength⟩ := roundAfter_spec h hlisted hspec hround
    exact ⟨hsuffix, schedule, hschedule, hcatalog', hlength⟩

omit [DecidableEq Digest] in
theorem Turning.started (h : Turning binding order start passes)
    (hsorted : order.Pairwise (· < ·)) {scope : String} {rest : List String}
    (hqueue : passes.queue = scope :: rest) {store' : Store Digest}
    (hstarted : passes.store.scanStarted binding scope = .ok store') :
    Turning binding order start
      { store := store'
        queue := rest
        log := passes.log ++ [scope]
        round := passes.round.map (· ++ [scope]) } := by
  obtain ⟨schedule, hschedule, hremaining, hschedule'⟩ := scanStarted_schedule hstarted
  obtain ⟨schedule₀, hschedule₀, hle, htake⟩ := h.queue (by rw [hqueue]; exact List.cons_ne_nil _ _)
  rw [hschedule, Option.some_inj] at hschedule₀
  subst hschedule₀
  obtain ⟨hscope, hrest⟩ := take_rotate_cons hle (htake.symm.trans hqueue)
  have hlength : (passes.log ++ [scope]).length = passes.log.length + 1 := by
    rw [List.length_append, List.length_singleton]
  have hlast : store'.lastScope = some scope := by
    rw [Store.lastScope, hschedule']
    rfl
  refine ⟨h.follows.concat hscope, ?_, fun _ => ?_, fun _ => ?_, ?_⟩
  · show inTurn order store'.lastScope = order.rotate (start + (passes.log ++ [scope]).length)
    rw [hlast, inTurn_next hsorted hscope, hlength, ← Nat.add_assoc, ← List.rotate_rotate,
      List.rotate_mod, List.rotate_rotate]
  · rw [hlast]
    exact List.getLast?_concat.symm
  · refine ⟨_, hschedule', (Nat.sub_le _ _).trans hle, ?_⟩
    show rest = _
    rw [hlength, ← Nat.add_assoc]
    exact hrest
  · intro round hround
    obtain ⟨before, hbefore, rfl⟩ := Option.map_eq_some_iff.mp hround
    obtain ⟨⟨earlier, hsuffix⟩, schedule₁, hschedule₁, hcatalog, hsum⟩ := h.round before hbefore
    rw [hschedule, Option.some_inj] at hschedule₁
    subst hschedule₁
    refine ⟨⟨earlier, ?_⟩, _, hschedule', hcatalog, ?_⟩
    · rw [← List.append_assoc, hsuffix]
    · rw [List.length_append, List.length_singleton]
      show before.length + 1 + (schedule.remaining - 1) = order.length
      omega

omit [DecidableEq Digest] in
/-- Where only the store changes, and not its schedule, or the pass ends. -/
theorem Turning.congr (h : Turning binding order start passes) {passes' : Passes Digest}
    (hschedule : passes'.store.schedule = passes.store.schedule)
    (hqueue : passes'.queue = [] ∨ passes'.queue = passes.queue) (hlog : passes'.log = passes.log)
    (hround : passes'.round = passes.round) : Turning binding order start passes' := by
  have hlast : passes'.store.lastScope = passes.store.lastScope := by
    rw [Store.lastScope, Store.lastScope, hschedule]
  refine ⟨hlog ▸ h.follows, ?_, ?_, ?_, ?_⟩
  · rw [hlast, hlog]
    exact h.turn
  · rw [hlast, hlog]
    exact h.last
  · intro hne
    rcases hqueue with hnil | hsame
    · exact absurd hnil hne
    · rw [hsame, hschedule, hlog]
      exact h.queue (hsame ▸ hne)
  · rw [hround, hlog, hschedule]
    exact h.round

theorem Turning.next (h : Turning binding order start passes) (hsorted : order.Pairwise (· < ·))
    {scopes : List String} (horder : sortedSet scopes = order) {step : PassStep}
    (hstep : step.Over scopes) : Turning binding order start (passes.next binding step) := by
  cases step with
  | catalog moment listed =>
    unfold Passes.next
    dsimp only
    split
    · rename_i work store hcatalog
      exact h.catalog ((sortedSet_congr hstep).trans horder) hcatalog
    · exact h.congr rfl (Or.inl rfl) rfl rfl
  | start =>
    unfold Passes.next
    dsimp only
    split
    · exact h
    · rename_i scope rest hqueue
      split
      · rename_i store hstarted
        exact h.started hsorted hqueue hstarted
      · exact h.congr rfl (Or.inl rfl) rfl rfl
  | other call => exact h.congr (next_schedule hstep) (Or.inr rfl) rfl rfl

theorem turning_run (store : Store Digest) (scopes : List String) (steps : List PassStep)
    (hsteps : ∀ step ∈ steps, step.Over scopes) :
    Turning binding (sortedSet scopes) (bisectRight (sortedSet scopes) store.lastScope)
      ((passMachine binding store).run steps) := by
  apply Machine.run_invariant _ _ (PassStep.Over scopes) _ _ steps hsteps
  · refine ⟨follows_nil _ _, ?_, fun h => absurd rfl h, fun h => absurd rfl h, fun _ h => (nomatch h)⟩
    exact inTurn_eq _ _
  · exact fun passes step hstep h => h.next (sortedSet_sorted scopes) rfl hstep

end Turns

def otherScope : String := "conversation:" ++ String.ofList (List.replicate 64 'b')

def samplePasses : List PassStep :=
  [.catalog ⟨1, 10, true⟩ [sampleScope, otherScope], .start,
    .catalog ⟨2, 10, true⟩ [otherScope, sampleScope], .start, .start]

end Mnemion.Coverage
