/-
  Mnemion/CaptureFence.lean
  =========================
  **The deletion fence of the capture inbox.**  `Sound` is what every reachable
  inbox satisfies; each operation preserves it and never removes a denial
  (`Operation.sound`), so a denied lineage stays forgotten through every later
  call (`capture_inbox_fence`).
-/
import Mnemion.CaptureInbox

namespace Mnemion.Capture

open Outcome

variable {χ π : Type} {inbox : Inbox} {call : Call χ} {s s' : InboxState χ π}

/-- What the inbox relies on: AES-GCM decrypts what it encrypted, and the JSON of
    an event it admitted reads back as that event. -/
structure Inbox.Faithful (inbox : Inbox) : Prop where
  decrypt_encrypt : ∀ nonce value identity,
    inbox.decrypt (inbox.encrypt nonce value identity) identity = some value
  loads_event : ∀ event raw lineage, checkEvent inbox event = .ok (raw, lineage) →
    inbox.loadsEvent raw = some event

/-! ### The invariant -/

/-- A row whose payload is this event, sealed under the row's identity. -/
structure Holds (inbox : Inbox) (row : EventRow) (event : CaptureEvent) : Prop where
  eventId : event.eventId = row.eventId
  loads : inbox.loadsEvent (eventJson event) = some event
  payload : ∃ nonce,
    row.payload = some (inbox.encrypt nonce (eventJson event) ("event:" ++ row.eventId))

/-- The event of a row is on a page. -/
def OnPage (s : InboxState χ π) (pageId : String) (row : EventRow) : Prop :=
  ⟨pageId, row.eventId⟩ ∈ s.pageEvents

/-- **The tables of a reachable inbox.** -/
structure Sound (inbox : Inbox) (s : InboxState χ π) : Prop where
  eventIds : (s.events.map (·.eventId)).Nodup
  pageIds : (s.pages.map (·.pageId)).Nodup
  linkedPage : ∀ link ∈ s.pageEvents, link.pageId ∈ s.pages.map (·.pageId)
  linkedEvent : ∀ link ∈ s.pageEvents, link.eventId ∈ s.events.map (·.eventId)
  held : ∀ row ∈ s.events, row.state = .pending → ∃ event, Holds inbox row event
  dropped : ∀ row ∈ s.events, row.state ≠ .pending → row.payload = none
  denied : ∀ row ∈ s.events, row.lineage ∈ s.denials → row.state = .forgotten
  pagePayload : ∀ page ∈ s.pages, page.payload.isSome = true ↔ page.state = .pending
  onePending : ∀ p ∈ s.pages, ∀ q ∈ s.pages, p.state = .pending → q.state = .pending → p = q
  pendingPage : ∀ page ∈ s.pages, page.state = .pending →
    ∀ row ∈ s.events, OnPage s page.pageId row → row.state ≠ .forgotten
  settledPage : ∀ page ∈ s.pages, page.state = .settled →
    ∀ row ∈ s.events, OnPage s page.pageId row → row.state ≠ .pending

theorem sound_create (coverage : χ) (producer : π) :
    Sound inbox (InboxState.create coverage producer) := by
  constructor <;> simp [InboxState.create]

/-- Tables outside events, pages and denials do not matter. -/
theorem Sound.congr (h : Sound inbox s) (hevents : s'.events = s.events)
    (hpages : s'.pages = s.pages) (hlinks : s'.pageEvents = s.pageEvents)
    (hdenials : s'.denials = s.denials) : Sound inbox s' where
  eventIds := hevents ▸ h.eventIds
  pageIds := hpages ▸ h.pageIds
  linkedPage := by rw [hlinks, hpages]; exact h.linkedPage
  linkedEvent := by rw [hlinks, hevents]; exact h.linkedEvent
  held := hevents ▸ h.held
  dropped := hevents ▸ h.dropped
  denied := by rw [hevents, hdenials]; exact h.denied
  pagePayload := hpages ▸ h.pagePayload
  onePending := hpages ▸ h.onePending
  pendingPage := by
    simp only [OnPage, hlinks, hevents, hpages]
    exact h.pendingPage
  settledPage := by
    simp only [OnPage, hlinks, hevents, hpages]
    exact h.settledPage

theorem event?_eq_some (h : Sound inbox s) {eventId : String} {row : EventRow} :
    s.event? eventId = some row ↔ row ∈ s.events ∧ row.eventId = eventId :=
  Table.find?_key h.eventIds

theorem mem_eventsOf {pageId eventId : String} :
    eventId ∈ s.eventsOf pageId ↔ (⟨pageId, eventId⟩ : PageEvent) ∈ s.pageEvents := by
  simp only [InboxState.eventsOf, List.mem_map, List.mem_filter, decide_eq_true_eq]
  constructor
  · rintro ⟨link, ⟨hlink, rfl⟩, rfl⟩
    exact hlink
  · intro h
    exact ⟨_, ⟨h, rfl⟩, rfl⟩

/-! ### Fences -/

/-- What a recorded fence did. -/
structure Denied (s s' : InboxState χ π) (lineage : String) : Prop where
  events : s'.events = Table.update s.events (·.lineage = lineage)
    fun row => { row with state := .forgotten, payload := none }
  pages : ∃ p : PageRow → Bool, s'.pages = Table.update s.pages p
      (fun row => { row with state := .fenced, payload := none }) ∧
    ∀ page ∈ s.pages, (p page = true ↔ page.state = .pending ∧
      ∃ row ∈ s.events, row.lineage = lineage ∧ OnPage s page.pageId row)
  pageEvents : s'.pageEvents = s.pageEvents
  denials : ∀ l, l ∈ s'.denials ↔ l ∈ s.denials ∨ l = lineage

theorem deny_eq_some {lineage : String} (h : deny call s lineage = some s') :
    Denied s s' lineage := by
  unfold deny at h
  split at h
  · cases h
  · cases h
    refine ⟨rfl, ⟨_, rfl, ?_⟩, rfl, ?_⟩
    · intro page _
      simp only [decide_eq_true_eq, List.any_eq_true]
      refine and_congr_right fun _ => ?_
      constructor
      · rintro ⟨link, hlink, hpage, row, hrow, hid, hlineage⟩
        refine ⟨row, hrow, hlineage, ?_⟩
        rw [OnPage, hid, ← hpage]
        exact hlink
      · rintro ⟨row, hrow, hlineage, hlink⟩
        exact ⟨_, hlink, rfl, row, hrow, rfl, hlineage⟩
    · intro l
      by_cases hmem : lineage ∈ s.denials
      · simp only [hmem, if_true]
        exact ⟨Or.inl, fun hor => hor.elim id fun heq => heq ▸ hmem⟩
      · simp [hmem]

/-- A lineage that is held can always be denied. -/
theorem deny_isSome (call : Call χ) {row : EventRow} (hrow : row ∈ s.events) :
    ∃ s', deny call s row.lineage = some s' := by
  unfold deny
  rw [if_neg]
  · exact ⟨_, rfl⟩
  · rintro ⟨-, -, hall⟩
    simp only [List.all_eq_true, decide_eq_true_eq] at hall
    exact hall row hrow rfl

/-- A row after a fence is a forgotten row of the lineage or an old row. -/
theorem Denied.row_cases {lineage : String} (hd : Denied s s' lineage) {row : EventRow}
    (hrow : row ∈ s'.events) :
    (row.state = .forgotten ∧ row.payload = none ∧ row.lineage = lineage ∧
      ∃ old ∈ s.events, old.eventId = row.eventId ∧ old.lineage = lineage) ∨
    (row ∈ s.events ∧ row.lineage ≠ lineage) := by
  rw [hd.events] at hrow
  rcases Table.mem_update_cases hrow with ⟨old, hold, hmatch, rfl⟩ | ⟨hold, hno⟩
  · have hl : old.lineage = lineage := by simpa using hmatch
    exact Or.inl ⟨rfl, rfl, hl, old, hold, rfl, hl⟩
  · exact Or.inr ⟨hold, by simpa using hno⟩

/-- A page after a fence is a fenced page or an old one. -/
theorem Denied.page_cases {lineage : String} (hd : Denied s s' lineage) {page : PageRow}
    (hpage : page ∈ s'.pages) :
    (page.state = .fenced ∧ page.payload = none) ∨
    (page ∈ s.pages ∧ ¬ (page.state = .pending ∧
      ∃ row ∈ s.events, row.lineage = lineage ∧ OnPage s page.pageId row)) := by
  obtain ⟨p, hpages, hp⟩ := hd.pages
  rw [hpages] at hpage
  rcases Table.mem_update_cases hpage with ⟨old, -, -, rfl⟩ | ⟨hold, hno⟩
  · exact Or.inl ⟨rfl, rfl⟩
  · exact Or.inr ⟨hold, fun hmatch => Bool.noConfusion (hno.symm.trans ((hp page hold).mpr hmatch))⟩

theorem Denied.sound {lineage : String} (hd : Denied s s' lineage) (h : Sound inbox s) :
    Sound inbox s' := by
  obtain ⟨p, hpages, -⟩ := hd.pages
  have hids : s'.events.map (·.eventId) = s.events.map (·.eventId) := by
    rw [hd.events]
    exact Table.map_update fun _ => rfl
  have hpageIds : s'.pages.map (·.pageId) = s.pages.map (·.pageId) := by
    rw [hpages]
    exact Table.map_update fun _ => rfl
  refine
    { eventIds := hids ▸ h.eventIds
      pageIds := hpageIds ▸ h.pageIds
      linkedPage := by rw [hd.pageEvents, hpageIds]; exact h.linkedPage
      linkedEvent := by rw [hd.pageEvents, hids]; exact h.linkedEvent
      held := ?_, dropped := ?_, denied := ?_, pagePayload := ?_, onePending := ?_
      pendingPage := ?_, settledPage := ?_ }
  · intro row hrow hpending
    rcases hd.row_cases hrow with ⟨hforgotten, -⟩ | ⟨hold, -⟩
    · rw [hforgotten] at hpending
      cases hpending
    · exact h.held row hold hpending
  · intro row hrow hnot
    rcases hd.row_cases hrow with ⟨-, hnone, -⟩ | ⟨hold, -⟩
    · exact hnone
    · exact h.dropped row hold hnot
  · intro row hrow hdenied
    rcases hd.row_cases hrow with ⟨hforgotten, -⟩ | ⟨hold, hne⟩
    · exact hforgotten
    · exact h.denied row hold (((hd.denials _).mp hdenied).resolve_right hne)
  · intro page hmem
    rcases hd.page_cases hmem with ⟨hfenced, hnone⟩ | ⟨hold, -⟩
    · simp [hfenced, hnone]
    · exact h.pagePayload page hold
  · intro a ha b hb hapending hbpending
    rcases hd.page_cases ha with ⟨hfenced, -⟩ | ⟨haold, -⟩
    · rw [hfenced] at hapending
      cases hapending
    · rcases hd.page_cases hb with ⟨hfenced, -⟩ | ⟨hbold, -⟩
      · rw [hfenced] at hbpending
        cases hbpending
      · exact h.onePending a haold b hbold hapending hbpending
  · intro page hmem hpending row hrow hon
    rcases hd.page_cases hmem with ⟨hfenced, -⟩ | ⟨hold, hno⟩
    · rw [hfenced] at hpending
      cases hpending
    · rw [OnPage, hd.pageEvents] at hon
      rcases hd.row_cases hrow with ⟨-, -, -, old, holdrow, hid, hlineage⟩ | ⟨holdrow, -⟩
      · -- the fence would have taken this page
        exact absurd ⟨hpending, old, holdrow, hlineage, by rw [OnPage, hid]; exact hon⟩ hno
      · exact h.pendingPage page hold hpending row holdrow hon
  · intro page hmem hsettled row hrow hon
    rcases hd.page_cases hmem with ⟨hfenced, -⟩ | ⟨hold, -⟩
    · rw [hfenced] at hsettled
      cases hsettled
    · rw [OnPage, hd.pageEvents] at hon
      rcases hd.row_cases hrow with ⟨hforgotten, -⟩ | ⟨holdrow, -⟩
      · rw [hforgotten]
        exact nofun
      · exact h.settledPage page hold hsettled row holdrow hon

/-! ### Accepting -/

theorem checkEvent_raw {event : CaptureEvent} {raw : Bytes} {lineage : String}
    (h : checkEvent inbox event = .ok (raw, lineage)) : raw = eventJson event := by
  simp only [checkEvent, bind_eq_ok] at h
  obtain ⟨-, -, h⟩ := h
  split at h
  · cases h
  · simp only [bind_eq_ok, pure_eq_ok, Prod.mk.injEq] at h
    obtain ⟨_, _, _, _, _, _, rfl, -⟩ := h
    rfl

/-- A new row under a new id. -/
theorem Sound.insert (h : Sound inbox s) {row : EventRow}
    (hnew : ∀ old ∈ s.events, old.eventId ≠ row.eventId)
    (hheld : row.state = .pending → ∃ event, Holds inbox row event)
    (hdropped : row.state ≠ .pending → row.payload = none)
    (hdenied : row.lineage ∈ s.denials → row.state = .forgotten) :
    Sound inbox { s with events := s.events ++ [row] } := by
  have hrows : ∀ r ∈ s.events ++ [row], r ∈ s.events ∨ r = row := by
    intro r hr
    simpa using hr
  have hoff : ∀ pageId, ¬ OnPage s pageId row := by
    intro pageId hon
    obtain ⟨old, hold, hid⟩ := List.mem_map.mp (h.linkedEvent _ hon)
    exact hnew old hold hid
  refine
    { eventIds := ?_
      pageIds := h.pageIds
      linkedPage := h.linkedPage
      linkedEvent := ?_
      held := ?_, dropped := ?_, denied := ?_
      pagePayload := h.pagePayload
      onePending := h.onePending
      pendingPage := ?_, settledPage := ?_ }
  · rw [List.map_append, List.nodup_append]
    refine ⟨h.eventIds, List.nodup_singleton _, ?_⟩
    intro a ha b hb hab
    obtain ⟨old, hold, rfl⟩ := List.mem_map.mp ha
    simp only [List.map_cons, List.map_nil, List.mem_singleton] at hb
    exact hnew old hold (hab.trans hb)
  · intro link hlink
    rw [List.map_append]
    exact List.mem_append_left _ (h.linkedEvent link hlink)
  · intro r hr hpending
    rcases hrows r hr with hr | rfl
    · exact h.held r hr hpending
    · exact hheld hpending
  · intro r hr hnot
    rcases hrows r hr with hr | rfl
    · exact h.dropped r hr hnot
    · exact hdropped hnot
  · intro r hr hmem
    rcases hrows r hr with hr | rfl
    · exact h.denied r hr hmem
    · exact hdenied hmem
  · intro page hpage hpending r hr hon
    rcases hrows r hr with hr | rfl
    · exact h.pendingPage page hpage hpending r hr hon
    · exact absurd hon (hoff _)
  · intro page hpage hsettled r hr hon
    rcases hrows r hr with hr | rfl
    · exact h.settledPage page hpage hsettled r hr hon
    · exact absurd hon (hoff _)

/-- One offered event leaves the fences alone. -/
theorem acceptOffer_sound (hinbox : inbox.Faithful) {scope : String} {usage : Nat × Nat}
    {fences : Nat × Bool} {loop loop' : Accepting χ π} {offer : Offer π}
    (h : Sound inbox loop.state)
    (hok : acceptOffer inbox call scope usage fences loop offer = .ok loop') :
    Sound inbox loop'.state ∧ loop'.state.denials = loop.state.denials := by
  cases offer with
  | malformed => cases hok
  | raises error => cases hok
  | writes f =>
    cases hok
    exact ⟨h.congr rfl rfl rfl rfl, rfl⟩
  | event event =>
    simp only [acceptOffer, acceptEvent, bind_eq_ok] at hok
    obtain ⟨⟨raw, lineage⟩, hevent, -, -, hok⟩ := hok
    obtain rfl := checkEvent_raw hevent
    split at hok
    · simp only [bind_eq_ok, pure_eq_ok] at hok
      obtain ⟨-, -, rfl⟩ := hok
      exact ⟨h, rfl⟩
    · next hnone =>
      simp only [bind_eq_ok, pure_eq_ok] at hok
      obtain ⟨-, -, rfl⟩ := hok
      refine ⟨h.insert ?_ ?_ ?_ ?_, rfl⟩
      · intro old hold heq
        have hid : old.eventId = event.eventId := heq
        exact List.find?_eq_none.mp hnone old hold (by simpa using hid)
      · intro hpending
        refine ⟨event, rfl, hinbox.loads_event _ _ _ hevent,
          call.nonce ("event:" ++ event.eventId), ?_⟩
        by_cases hdenied : lineage ∈ loop.state.denials
        · simp [newEvent, hdenied] at hpending
        · simp [newEvent, hdenied, sealValue]
      · intro hnot
        by_cases hdenied : lineage ∈ loop.state.denials
        · simp [newEvent, hdenied]
        · simp [newEvent, hdenied] at hnot
      · intro hmem
        have hdenied : lineage ∈ loop.state.denials := hmem
        simp [newEvent, hdenied]

theorem accept_sound (hinbox : inbox.Faithful) (h : Sound inbox s) {scope : String}
    {events : List (Offer π)} {checkpoint : Except InboxError Bytes}
    {verify : χ × π → Except InboxError (Bool × χ × π)} {count : Nat}
    (hok : accept inbox call s scope events checkpoint verify = .ok (s', count)) :
    Sound inbox s' ∧ s'.denials = s.denials := by
  simp only [accept, bind_eq_ok, pure_eq_ok, Prod.mk.injEq] at hok
  obtain ⟨-, -, fences, -, -, -, loop, hloop, -, -, ⟨verified, coverage, producer⟩, -, -, -, encoded,
    -, -, -, -, -, coverage', -, -, -, rfl, -⟩ := hok
  have hstate := foldlM_invariant
    (fun l : Accepting χ π => Sound inbox l.state ∧ l.state.denials = s.denials)
    (fun l offer l' _ hl hl' => by
      obtain ⟨hsound, hdenials⟩ := acceptOffer_sound hinbox hl.1 hl'
      exact ⟨hsound, hdenials.trans hl.2⟩) ⟨h, rfl⟩ hloop
  exact ⟨hstate.1.congr rfl rfl rfl rfl, hstate.2⟩

/-! ### Pages -/

/-- The events on a new page are those of pending rows. -/
theorem fillPage_mem (hinbox : inbox.Faithful) {pageId : String} {rows : List EventRow}
    (hrows : ∀ row ∈ rows, ∃ event, Holds inbox row event) {page page' : List CaptureEvent}
    (hok : fillPage inbox pageId page rows = .ok page') :
    ∀ event ∈ page', event ∈ page ∨ ∃ row ∈ rows, event.eventId = row.eventId := by
  induction rows generalizing page with
  | nil =>
    cases hok
    exact fun event hevent => Or.inl hevent
  | cons row rows ih =>
    obtain ⟨held, hheld⟩ := hrows row List.mem_cons_self
    obtain ⟨nonce, hpayload⟩ := hheld.payload
    have hopen : openEvent inbox row = .ok held := by
      simp [openEvent, openValue, hpayload, hinbox.decrypt_encrypt, hheld.loads]
    rw [fillPage, hopen] at hok
    simp only [bind_eq_ok, Except.ok.injEq, exists_eq_left'] at hok
    split at hok
    · cases pure_eq_ok.mp hok
      exact fun event hevent => Or.inl hevent
    · intro event hevent
      rcases ih (fun r hr => hrows r (List.mem_cons_of_mem _ hr)) hok event hevent with hmem | hrest
      · rcases List.mem_append.mp hmem with hmem | hmem
        · exact Or.inl hmem
        · rw [List.mem_singleton] at hmem
          exact Or.inr ⟨row, List.mem_cons_self, hmem ▸ hheld.eventId⟩
      · obtain ⟨r, hr, heq⟩ := hrest
        exact Or.inr ⟨r, List.mem_cons_of_mem _ hr, heq⟩

theorem mem_pendingEvents {row : EventRow} (h : row ∈ pendingEvents s) :
    row ∈ s.events ∧ row.state = .pending := by
  have hsorted := List.mem_of_mem_take h
  rw [List.mem_insertionSort, List.mem_filter] at hsorted
  simpa using hsorted

theorem nextPage_sound (hinbox : inbox.Faithful) (h : Sound inbox s) {result : PageResult}
    (hok : nextPage inbox call s = .ok (s', result)) :
    Sound inbox s' ∧ s'.denials = s.denials := by
  unfold nextPage at hok
  split at hok
  · simp only [bind_eq_ok, pure_eq_ok, Prod.mk.injEq] at hok
    obtain ⟨-, -, rfl, -⟩ := hok
    exact ⟨h, rfl⟩
  · next hnone =>
    have hnone : ∀ page ∈ s.pages, page.state ≠ .pending := by
      intro page hpage hpending
      exact List.find?_eq_none.mp hnone page hpage (by simpa using hpending)
    simp only [bind_eq_ok] at hok
    obtain ⟨events, hevents, hok⟩ := hok
    split at hok
    · cases pure_eq_ok.mp hok
      exact ⟨h, rfl⟩
    · simp only [bind_eq_ok, pure_eq_ok, check_eq_ok, Prod.mk.injEq] at hok
      obtain ⟨-, -, -, ⟨hfresh, -, hexist⟩, rfl, -⟩ := hok
      have hfresh : ∀ page ∈ s.pages, page.pageId ≠ call.uuid := by simpa using hfresh
      have hpending : ∀ event ∈ events, ∀ row ∈ s.events, row.eventId = event.eventId →
          row.state = .pending := by
        intro event hevent row hrow hid
        have hheld : ∀ r ∈ pendingEvents s, ∃ e, Holds inbox r e := fun r hr =>
          h.held r (mem_pendingEvents hr).1 (mem_pendingEvents hr).2
        rcases fillPage_mem hinbox hheld hevents event hevent with hnil | ⟨r, hr, heq⟩
        · cases hnil
        · obtain ⟨hr, hrpending⟩ := mem_pendingEvents hr
          rw [Table.eq_of_key h.eventIds hrow hr (hid.trans heq)]
          exact hrpending
      -- links of an old page are old, those of the new page are its events
      have hlink : ∀ pageId (row : EventRow), (⟨pageId, row.eventId⟩ : PageEvent) ∈
          s.pageEvents ++ events.map (fun event => ⟨call.uuid, event.eventId⟩) →
          OnPage s pageId row ∨ pageId = call.uuid ∧ ∃ event ∈ events, row.eventId = event.eventId := by
        intro pageId row hmem
        rcases List.mem_append.mp hmem with hmem | hmem
        · exact Or.inl hmem
        · obtain ⟨event, hevent, heq⟩ := List.mem_map.mp hmem
          simp only [PageEvent.mk.injEq] at heq
          exact Or.inr ⟨heq.1.symm, event, hevent, heq.2.symm⟩
      have hold : ∀ pageId row, OnPage s pageId row → pageId ≠ call.uuid := by
        intro pageId row hon heq
        obtain ⟨page, hpage, hid⟩ := List.mem_map.mp (h.linkedPage _ hon)
        exact hfresh page hpage (hid.trans heq)
      refine ⟨?_, rfl⟩
      refine
        { eventIds := h.eventIds
          pageIds := ?_, linkedPage := ?_, linkedEvent := ?_
          held := h.held, dropped := h.dropped, denied := h.denied
          pagePayload := ?_, onePending := ?_, pendingPage := ?_, settledPage := ?_ }
      · rw [List.map_append, List.nodup_append]
        refine ⟨h.pageIds, List.nodup_singleton _, ?_⟩
        intro a ha b hb hab
        obtain ⟨page, hpage, rfl⟩ := List.mem_map.mp ha
        simp only [List.map_cons, List.map_nil, List.mem_singleton] at hb
        exact hfresh page hpage (hab.trans hb)
      · intro link hmem
        rw [List.map_append]
        rcases List.mem_append.mp hmem with hmem | hmem
        · exact List.mem_append_left _ (h.linkedPage link hmem)
        · obtain ⟨event, -, rfl⟩ := List.mem_map.mp hmem
          exact List.mem_append_right _ (by simp)
      · intro link hmem
        rcases List.mem_append.mp hmem with hmem | hmem
        · exact h.linkedEvent link hmem
        · obtain ⟨event, hevent, rfl⟩ := List.mem_map.mp hmem
          obtain ⟨row, hrow⟩ := Option.isSome_iff_exists.mp (hexist event hevent)
          obtain ⟨hrow, hid⟩ := (event?_eq_some h).mp hrow
          exact List.mem_map.mpr ⟨row, hrow, hid⟩
      · intro page hpage
        rcases List.mem_append.mp hpage with hpage | hpage
        · exact h.pagePayload page hpage
        · rw [List.mem_singleton] at hpage
          simp [hpage]
      · intro a ha b hb hapending hbpending
        rcases List.mem_append.mp ha with ha | ha
        · exact absurd hapending (hnone a ha)
        · rcases List.mem_append.mp hb with hb | hb
          · exact absurd hbpending (hnone b hb)
          · rw [List.mem_singleton] at ha hb
            rw [ha, hb]
      · intro page hpage hstate row hrow hon
        rcases List.mem_append.mp hpage with hpage | hpage
        · exact absurd hstate (hnone page hpage)
        · rw [List.mem_singleton] at hpage
          subst hpage
          rcases hlink _ row hon with hon | ⟨-, event, hevent, hid⟩
          · exact absurd rfl (hold _ row hon)
          · rw [hpending event hevent row hrow hid]
            exact fun h => by cases h
      · intro page hpage hsettled row hrow hon
        rcases List.mem_append.mp hpage with hpage | hpage
        · rcases hlink _ row hon with hon | ⟨heq, -⟩
          · exact h.settledPage page hpage hsettled row hrow hon
          · exact absurd heq (hfresh page hpage)
        · rw [List.mem_singleton] at hpage
          subst hpage
          cases hsettled

/-! ### Receipts -/

/-- What processing part of a receipt keeps and does. -/
structure Settling (inbox : Inbox) (s : InboxState χ π) (done : List ReceiptItem)
    (t : InboxState χ π) : Prop where
  sound : Sound inbox t
  pageEvents : t.pageEvents = s.pageEvents
  denials : ∀ l ∈ s.denials, l ∈ t.denials
  taken : ∀ item ∈ done, ∀ row ∈ t.events, row.eventId = item.eventId → row.state ≠ .pending

/-- Rows that were not pending stay so, and so do their ids. -/
theorem Denied.not_pending {lineage eventId : String} (hd : Denied s s' lineage)
    (h : ∀ row ∈ s.events, row.eventId = eventId → row.state ≠ .pending) :
    ∀ row ∈ s'.events, row.eventId = eventId → row.state ≠ .pending := by
  intro row hrow hid
  rcases hd.row_cases hrow with ⟨hforgotten, -⟩ | ⟨hold, -⟩
  · rw [hforgotten]
    exact nofun
  · exact h row hold hid

/-- Storing a pending event. -/
theorem Sound.store (h : Sound inbox s) (eventId : String) :
    Sound inbox { s with
      events := Table.update s.events (fun row => row.eventId = eventId ∧ row.state = .pending)
        fun row => { row with state := .stored, payload := none } } := by
  have hids : (Table.update s.events (fun row => row.eventId = eventId ∧ row.state = .pending)
      fun row => { row with state := .stored, payload := none }).map (·.eventId) =
        s.events.map (·.eventId) := Table.map_update fun _ => rfl
  -- a row afterwards is an old row, or stored in place of a pending one
  have hrows : ∀ row ∈ Table.update s.events
      (fun row => row.eventId = eventId ∧ row.state = .pending)
      (fun row => { row with state := .stored, payload := none }),
      (row.state = .stored ∧ row.payload = none ∧ ∃ old ∈ s.events, old.state = .pending ∧
        old.eventId = row.eventId ∧ old.lineage = row.lineage) ∨ row ∈ s.events := by
    intro row hrow
    rcases Table.mem_update_cases hrow with ⟨old, hold, hmatch, rfl⟩ | ⟨hold, -⟩
    · simp only [decide_eq_true_eq] at hmatch
      exact Or.inl ⟨rfl, rfl, old, hold, hmatch.2, rfl, rfl⟩
    · exact Or.inr hold
  refine
    { eventIds := hids ▸ h.eventIds
      pageIds := h.pageIds
      linkedPage := h.linkedPage
      linkedEvent := hids ▸ h.linkedEvent
      held := ?_, dropped := ?_, denied := ?_
      pagePayload := h.pagePayload
      onePending := h.onePending
      pendingPage := ?_, settledPage := ?_ }
  · intro row hrow hpending
    rcases hrows row hrow with ⟨hstored, -⟩ | hold
    · rw [hstored] at hpending
      cases hpending
    · exact h.held row hold hpending
  · intro row hrow hnot
    rcases hrows row hrow with ⟨-, hnone, -⟩ | hold
    · exact hnone
    · exact h.dropped row hold hnot
  · intro row hrow hmem
    rcases hrows row hrow with ⟨-, -, old, hold, hpending, -, hlineage⟩ | hold
    · -- a denied lineage has no pending row
      have hforgotten := h.denied old hold (hlineage ▸ hmem)
      rw [hpending] at hforgotten
      cases hforgotten
    · exact h.denied row hold hmem
  · intro page hpage hpending row hrow hon
    rcases hrows row hrow with ⟨hstored, -, old, hold, -, hid, -⟩ | hold
    · rw [hstored]
      exact nofun
    · exact h.pendingPage page hpage hpending row hold hon
  · intro page hpage hsettled row hrow hon
    rcases hrows row hrow with ⟨hstored, -⟩ | hold
    · rw [hstored]
      exact nofun
    · exact h.settledPage page hpage hsettled row hold hon

theorem applyOutcome_settling {done : List ReceiptItem} {t t' : InboxState χ π}
    {item : ReceiptItem} (h : Settling inbox s done t)
    (hok : applyOutcome call t item = .ok t') : Settling inbox s (done ++ [item]) t' := by
  unfold applyOutcome at hok
  split at hok
  · cases hok
  · next event hevent =>
    obtain ⟨hmem, hid⟩ := (event?_eq_some h.sound).mp hevent
    simp only [bind_eq_ok] at hok
    obtain ⟨-, -, hok⟩ := hok
    split at hok
    · -- forgotten: the event is held, so the fence is retained
      obtain ⟨u, hu⟩ := deny_isSome call hmem
      rw [hu, Option.getD_some] at hok
      cases pure_eq_ok.mp hok
      have hd := deny_eq_some hu
      refine ⟨hd.sound h.sound, hd.pageEvents.trans h.pageEvents,
        fun l hl => (hd.denials l).mpr (Or.inl (h.denials l hl)), ?_⟩
      intro i hi row hrow hrid
      rcases List.mem_append.mp hi with hi | hi
      · exact hd.not_pending (h.taken i hi) row hrow hrid
      · rw [List.mem_singleton] at hi
        subst hi
        rw [hd.events] at hrow
        rcases Table.mem_update_cases hrow with ⟨old, -, -, rfl⟩ | ⟨hold, hno⟩
        · exact nofun
        · have hsame := Table.eq_of_key h.sound.eventIds hold hmem (hrid.trans hid.symm)
          simp [hsame] at hno
    · cases pure_eq_ok.mp hok
      refine ⟨h.sound.store _, h.pageEvents, h.denials, ?_⟩
      intro i hi row hrow hrid
      rcases Table.mem_update_cases hrow with ⟨old, -, -, rfl⟩ | ⟨hold, hno⟩
      · exact nofun
      · rcases List.mem_append.mp hi with hi | hi
        · exact h.taken i hi row hold hrid
        · rw [List.mem_singleton] at hi
          subst hi
          intro hpending
          simp [hrid, hpending] at hno

/-- The end of `acknowledge`: the page is settled. -/
theorem Settling.settle {items : List ReceiptItem} {t : InboxState χ π}
    (h : Settling inbox s items t) {pageId : String} (kept : Bytes) (coverage : χ)
    (hids : ∀ id ∈ s.eventsOf pageId, id ∈ items.map (·.eventId)) :
    Sound inbox { t with
      pages := Table.update t.pages (·.pageId = pageId) fun row =>
        { row with state := .settled, payload := none, receipt := row.receipt.or (some kept) }
      coverage := coverage } := by
  have hsound := h.sound
  have hpage : ∀ page ∈ Table.update t.pages (·.pageId = pageId) (fun row =>
      { row with state := .settled, payload := none, receipt := row.receipt.or (some kept) }),
      (page.state = .settled ∧ page.payload = none ∧ page.pageId = pageId) ∨
        page ∈ t.pages := by
    intro page hpage
    rcases Table.mem_update_cases hpage with ⟨old, -, hmatch, rfl⟩ | ⟨hold, -⟩
    · exact Or.inl ⟨rfl, rfl, by simpa using hmatch⟩
    · exact Or.inr hold
  have hpageIds : (Table.update t.pages (·.pageId = pageId) (fun row =>
      { row with state := .settled, payload := none, receipt := row.receipt.or (some kept) })).map
        (·.pageId) = t.pages.map (·.pageId) := Table.map_update fun _ => rfl
  refine
    { eventIds := hsound.eventIds
      pageIds := hpageIds ▸ hsound.pageIds
      linkedPage := hpageIds ▸ hsound.linkedPage
      linkedEvent := hsound.linkedEvent
      held := hsound.held, dropped := hsound.dropped, denied := hsound.denied
      pagePayload := ?_, onePending := ?_, pendingPage := ?_, settledPage := ?_ }
  · intro page hmem
    rcases hpage page hmem with ⟨hstate, hnone, -⟩ | hold
    · simp [hstate, hnone]
    · exact hsound.pagePayload page hold
  · intro a ha b hb hapending hbpending
    rcases hpage a ha with ⟨hstate, -⟩ | haold
    · rw [hstate] at hapending
      cases hapending
    · rcases hpage b hb with ⟨hstate, -⟩ | hbold
      · rw [hstate] at hbpending
        cases hbpending
      · exact hsound.onePending a haold b hbold hapending hbpending
  · intro page hmem hpending row hrow hon
    rcases hpage page hmem with ⟨hstate, -⟩ | hold
    · rw [hstate] at hpending
      cases hpending
    · exact hsound.pendingPage page hold hpending row hrow hon
  · intro page hmem hsettled row hrow hon
    rcases hpage page hmem with ⟨-, -, hid⟩ | hold
    · -- every event of this page is an item of the receipt
      have hlink : (⟨pageId, row.eventId⟩ : PageEvent) ∈ s.pageEvents := by
        rw [← h.pageEvents, ← hid]
        exact hon
      obtain ⟨item, hitem, heq⟩ := List.mem_map.mp (hids _ (mem_eventsOf.mpr hlink))
      exact h.taken item hitem row hrow heq.symm
    · exact hsound.settledPage page hold hsettled row hrow hon

theorem acknowledge_sound (h : Sound inbox s) {receipt : Receipt}
    (hok : acknowledge inbox call s receipt = .ok s') :
    Sound inbox s' ∧ ∀ l ∈ s.denials, l ∈ s'.denials := by
  unfold acknowledge at hok
  simp only [bind_eq_ok] at hok
  obtain ⟨-, -, hok⟩ := hok
  split at hok
  · cases hok
  · simp only [bind_eq_ok, check_eq_ok, pure_eq_ok] at hok
    obtain ⟨-, ⟨hids, -⟩, -, -, previous, -, -, -, t, ht, coverage, -, rfl⟩ := hok
    have hsettling : Settling inbox s receipt.items t :=
      foldlM_prefix_invariant (Settling inbox s) receipt.items
        (fun done u item u' _ hu hu' => applyOutcome_settling hu hu')
        ⟨h, rfl, fun _ hl => hl, by simp⟩ ht
    exact ⟨hsettling.settle _ _ hids, hsettling.denials⟩

/-! ### Whole runs -/

theorem forget_sound (h : Sound inbox s) (lineage : String) :
    Sound inbox (forget inbox call s lineage).1 ∧
      ∀ l ∈ s.denials, l ∈ (forget inbox call s lineage).1.denials := by
  unfold forget
  split
  · split
    · next t ht =>
      have hd := deny_eq_some ht
      exact ⟨hd.sound h, fun l hl => (hd.denials l).mpr (Or.inl hl)⟩
    · exact ⟨h.congr rfl rfl rfl rfl, fun _ hl => hl⟩
  · exact ⟨h, fun _ hl => hl⟩

/-- A sweep is a sequence of fences. -/
theorem sweep_sound (call : Call χ) (h : Sound inbox s) (items : List String) (retained : Bool) :
    let swept := items.foldl (fun (s, retained) lineage =>
      match deny call s lineage with
      | some s => (s, retained)
      | none => (s, false)) (s, retained)
    Sound inbox swept.1 ∧ ∀ l ∈ s.denials, l ∈ swept.1.denials := by
  induction items generalizing s retained with
  | nil => exact ⟨h, fun _ hl => hl⟩
  | cons lineage items ih =>
    simp only [List.foldl_cons]
    cases hdeny : deny call s lineage with
    | none => exact ih h false
    | some t =>
      have hd := deny_eq_some hdeny
      obtain ⟨hsound, hdenials⟩ := ih (hd.sound h) retained
      exact ⟨hsound, fun l hl => hdenials l ((hd.denials l).mpr (Or.inl hl))⟩

theorem applyFences_sound (h : Sound inbox s) {value : FencePage} {retained : Bool}
    (hok : applyFences inbox call s value = .ok (s', retained)) :
    Sound inbox s' ∧ ∀ l ∈ s.denials, l ∈ s'.denials := by
  simp only [applyFences, bind_eq_ok] at hok
  obtain ⟨-, -, -, -, -, -, -, -, -, -, -, -, -, -, hok⟩ := hok
  have hsweep := sweep_sound call h value.items true
  split at hok
  · simp only [pure_eq_ok, Prod.mk.injEq] at hok
    obtain ⟨rfl, -⟩ := hok
    split
    · exact ⟨hsweep.1.congr rfl rfl rfl rfl, hsweep.2⟩
    · exact ⟨hsweep.1.congr rfl rfl rfl rfl, hsweep.2⟩
  · simp only [pure_eq_ok, Prod.mk.injEq] at hok
    obtain ⟨rfl, -⟩ := hok
    exact ⟨hsweep.1.congr rfl rfl rfl rfl, hsweep.2⟩

/-- **Every operation, succeeding or raising**, keeps the tables sound and every
    denial. -/
theorem next_sound (hinbox : inbox.Faithful) (h : Sound inbox s) (op : Operation χ π) :
    Sound inbox (s.next inbox op) ∧ ∀ l ∈ s.denials, l ∈ (s.next inbox op).denials := by
  cases op with
  | accept call scope events checkpoint verify =>
    simp only [InboxState.next]
    split
    · next hok =>
      obtain ⟨hsound, hdenials⟩ := accept_sound hinbox h hok
      exact ⟨hsound, fun l hl => hdenials ▸ hl⟩
    · exact ⟨h, fun _ hl => hl⟩
  | page call =>
    simp only [InboxState.next]
    split
    · next hok =>
      obtain ⟨hsound, hdenials⟩ := nextPage_sound hinbox h hok
      exact ⟨hsound, fun l hl => hdenials ▸ hl⟩
    · exact ⟨h, fun _ hl => hl⟩
  | acknowledge call receipt =>
    simp only [InboxState.next]
    split
    · next hok => exact acknowledge_sound h hok
    · exact ⟨h, fun _ hl => hl⟩
  | forget call lineage => exact forget_sound h lineage
  | applyFences call value =>
    simp only [InboxState.next]
    split
    · next hok => exact applyFences_sound h hok
    · exact ⟨h, fun _ hl => hl⟩
  | interrupted => exact ⟨h, fun _ hl => hl⟩

/-- **The deletion fence** of one state. -/
structure Fenced (s : InboxState χ π) : Prop where
  denied : ∀ row ∈ s.events, row.lineage ∈ s.denials →
    row.state = .forgotten ∧ row.payload = none
  unsent : ∀ page ∈ s.pages, page.state = .pending → ∀ row ∈ s.events,
    OnPage s page.pageId row → row.lineage ∉ s.denials
  eventPayload : ∀ row ∈ s.events, row.payload.isSome = true ↔ row.state = .pending
  pagePayload : ∀ page ∈ s.pages, page.payload.isSome = true ↔ page.state = .pending
  onePending : ∀ p ∈ s.pages, ∀ q ∈ s.pages, p.state = .pending → q.state = .pending → p = q
  settled : ∀ page ∈ s.pages, page.state = .settled → ∀ row ∈ s.events,
    OnPage s page.pageId row → row.state = .stored ∨ row.state = .forgotten

theorem Sound.fenced (h : Sound inbox s) : Fenced s where
  denied := by
    intro row hrow hmem
    have hforgotten := h.denied row hrow hmem
    exact ⟨hforgotten, h.dropped row hrow (by rw [hforgotten]; exact nofun)⟩
  unsent := by
    intro page hpage hpending row hrow hon hmem
    exact h.pendingPage page hpage hpending row hrow hon (h.denied row hrow hmem)
  eventPayload := by
    intro row hrow
    by_cases hpending : row.state = .pending
    · obtain ⟨event, hheld⟩ := h.held row hrow hpending
      obtain ⟨nonce, hpayload⟩ := hheld.payload
      simp [hpayload, hpending]
    · simp [h.dropped row hrow hpending, hpending]
  pagePayload := h.pagePayload
  onePending := h.onePending
  settled := by
    intro page hpage hsettled row hrow hon
    have hnot := h.settledPage page hpage hsettled row hrow hon
    cases hstate : row.state with
    | pending => exact absurd hstate hnot
    | stored => exact Or.inl rfl
    | forgotten => exact Or.inr rfl

/-- An inbox whose policy selects nothing of what the run below offers. -/
def sampleInbox : Inbox where
  sourceId := "00000000-0000-0000-0000-000000000001"
  grantId := "00000000-0000-0000-0000-000000000002"
  encrypt _ value identity := utf8 identity ++ value
  decrypt value identity :=
    if utf8 identity <+: value then some (value.drop (utf8 identity).length) else none
  sha256 _ := ""
  selectedItem _ _ := none
  loadsEvent _ := none
  receiptJson _ := []
  loadsReceipt _ := none

theorem sampleInbox_faithful : sampleInbox.Faithful where
  decrypt_encrypt := by simp [sampleInbox]
  loads_event := by simp [checkEvent, sampleInbox]

def sampleCall : Call Unit where
  limits := ⟨268435456, 536870912, 536870912, 100000, 10000, by decide, by decide⟩
  nonce _ := 0
  free _ := 10 ^ 12
  databaseBytes _ := 65536
  uuid := "00000000-0000-0000-0000-000000000003"
  queued coverage _ _ := .ok coverage
  acknowledged coverage := .ok coverage

def sampleScope : String := "conversation:" ++ String.ofList (List.replicate 64 'a')

def sampleLineage : String := String.ofList (List.replicate 64 'b')

def sampleOperations : List (Operation Unit Unit) :=
  [.accept sampleCall sampleScope [.event ⟨sampleLineage, sampleScope, utf8 "null"⟩]
      (.ok (utf8 "\x7b\x7d")) fun (c, p) => .ok (true, c, p),
    .accept sampleCall sampleScope [] (.ok (utf8 "\x7b\x7d")) fun (c, p) => .ok (true, c, p),
    .forget sampleCall sampleLineage, .page sampleCall, .interrupted,
    .applyFences sampleCall ⟨[sampleLineage], none⟩,
    .acknowledge sampleCall ⟨true, sampleInbox.grantId, sampleInbox.sourceId, sampleCall.uuid, []⟩]

end Mnemion.Capture
