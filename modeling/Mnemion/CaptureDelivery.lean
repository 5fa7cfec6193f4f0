/-
  Mnemion/CaptureDelivery.lean
  ============================
  **What the capture inbox promises about delivery.**  `Deliverable` is what
  every reachable inbox satisfies on top of its fences: rows stand in the order
  they were accepted, a pending row fits on a page of its own, and a stored row
  is named by the receipt of a settled page.  A page is therefore never empty
  while an event is pending (`nextPage_none`), and is the longest admissible
  prefix of the queue (`nextPage_longest`).
-/
import Mnemion.CaptureFence

namespace Mnemion.Capture

open Outcome PythonText

variable {χ π : Type} {inbox : Inbox} {call : Call χ} {s s' t : InboxState χ π}

/-! ### Sizes -/

/-- A canonical UUID is 36 bytes of ASCII. -/
theorem length_utf8_uuid {uuid : String} (h : canonicalUuid uuid.toList = true) :
    (utf8 uuid).length = 36 := by
  simp only [canonicalUuid, Bool.and_eq_true, beq_iff_eq, List.all_eq_true, List.mem_range] at h
  obtain ⟨hlength, hchars⟩ := h
  have hone : ∀ c ∈ uuid.toList, (String.utf8EncodeChar c).length = 1 := by
    intro c hc
    obtain ⟨i, hi, rfl⟩ := List.getElem_of_mem hc
    have hchar := hchars i (hlength ▸ hi)
    rw [List.getD_eq_getElem?_getD, List.getElem?_eq_getElem hi, Option.getD_some] at hchar
    have hsmall : (uuid.toList[i]).val.toNat < 128 := by
      split at hchar
      · rw [beq_iff_eq] at hchar
        rw [hchar]
        decide
      · simp only [isLowerHex, Bool.or_eq_true, Bool.and_eq_true, decide_eq_true_eq,
          Char.le_def, UInt32.le_iff_toNat_le] at hchar
        rcases hchar with ⟨-, hle⟩ | ⟨-, hle⟩
        · exact Nat.lt_of_le_of_lt hle (by decide)
        · exact Nat.lt_of_le_of_lt hle (by decide)
    rw [String.length_utf8EncodeChar, Char.utf8Size_eq_one_iff, UInt32.le_iff_toNat_le]
    exact Nat.le_of_lt_succ hsmall
  rw [utf8, List.length_flatMap, List.map_congr_left hone]
  simp [hlength]

theorem length_intercalate_append (sep : Bytes) (xs ys : List Bytes) :
    (sep.intercalate xs).length ≤ (sep.intercalate (xs ++ ys)).length := by
  induction xs with
  | nil => simp
  | cons x xs ih =>
    cases xs with
    | nil =>
      cases ys with
      | nil => simp
      | cons y ys => simp
    | cons x' xs =>
      simp only [List.cons_append, List.intercalate_cons_cons, List.length_append] at ih ⊢
      omega

/-- A page grows with its events. -/
theorem length_pageJson_append (pageId : String) (events more : List CaptureEvent) :
    (pageJson pageId events).length ≤ (pageJson pageId (events ++ more)).length := by
  have := length_intercalate_append (utf8 ",") (events.map eventJson) (more.map eventJson)
  simp only [pageJson, List.map_append, List.length_append]
  omega

/-- **The bound on an event leaves room for the page around it.** -/
theorem length_pageJson_singleton {pageId : String} (hid : canonicalUuid pageId.toList = true)
    (event : CaptureEvent) : (pageJson pageId [event]).length = (eventJson event).length + 62 := by
  have hopening : (utf8 "\x7b\"events\":[").length = 11 := by decide +kernel
  have hmiddle : (utf8 "],\"page_id\":\"").length = 13 := by decide +kernel
  have hclosing : (utf8 "\"\x7d").length = 2 := by decide +kernel
  simp only [pageJson, List.map_cons, List.map_nil, List.intercalate_singleton, List.length_append,
    length_utf8_uuid hid, hopening, hmiddle, hclosing]
  omega

/-! ### The invariant -/

/-- What never changes in a row. -/
def EventRow.identity (row : EventRow) : Nat × String × String :=
  (row.sequence, row.eventId, row.lineage)

/-- The pending events in the order they were accepted. -/
def queue (s : InboxState χ π) : List EventRow := s.events.filter (·.state = .pending)

/-- A receipt the inbox acknowledged names this row as stored. -/
def Covered (inbox : Inbox) (s : InboxState χ π) (row : EventRow) : Prop :=
  ∃ page ∈ s.pages, page.state = .settled ∧ OnPage s page.pageId row ∧
    ∃ nonce receipt, page.receipt =
        some (inbox.encrypt nonce (inbox.receiptJson receipt) ("receipt:" ++ page.pageId)) ∧
      receiptValid inbox receipt = true ∧ receipt.pageId = page.pageId ∧
      ∃ item ∈ receipt.items, item.eventId = row.eventId ∧ item.outcome = .stored ∧
        item.lineageId = some row.lineage

/-- **The delivery tables of a reachable inbox.** -/
structure Deliverable (inbox : Inbox) (s : InboxState χ π) : Prop where
  sound : Sound inbox s
  order : (s.events.map (·.sequence)).Pairwise (· < ·)
  fits : ∀ row ∈ s.events, ∀ event, Holds inbox row event →
    (eventJson event).length ≤ PAGE_BYTES - 128
  forgotten : ∀ row ∈ s.events, row.state = .forgotten → row.lineage ∈ s.denials
  stored : ∀ row ∈ s.events, row.state = .stored → Covered inbox s row
  unsettled : ∀ page ∈ s.pages, page.state = .pending → page.receipt = none
  pinned : ∀ page ∈ s.pages, page.state = .pending → ∃ nonce raw,
    page.payload = some (inbox.encrypt nonce raw ("page:" ++ page.pageId))

/-- What an operation leaves of rows and pages: a pending row or page stays as it
    is until it is not pending any more. -/
structure Keeps (s t : InboxState χ π) : Prop where
  rows : ∀ row ∈ s.events, ∃ row' ∈ t.events, row'.identity = row.identity ∧
    (row' = row ∨ row'.state ≠ .pending)
  pages : ∀ page ∈ s.pages, ∃ page' ∈ t.pages, page'.pageId = page.pageId ∧
    (page' = page ∨ page'.state ≠ .pending)

theorem Keeps.refl (s : InboxState χ π) : Keeps s s where
  rows row hrow := ⟨row, hrow, rfl, Or.inl rfl⟩
  pages page hpage := ⟨page, hpage, rfl, Or.inl rfl⟩

theorem Keeps.trans (hst : Keeps s t) (htu : Keeps t s') : Keeps s s' where
  rows := by
    intro row hrow
    obtain ⟨row', hrow', hid, hkept⟩ := hst.rows row hrow
    obtain ⟨row'', hrow'', hid', hkept'⟩ := htu.rows row' hrow'
    refine ⟨row'', hrow'', hid'.trans hid, ?_⟩
    rcases hkept' with rfl | hmoved
    · exact hkept
    · exact Or.inr hmoved
  pages := by
    intro page hpage
    obtain ⟨page', hpage', hid, hkept⟩ := hst.pages page hpage
    obtain ⟨page'', hpage'', hid', hkept'⟩ := htu.pages page' hpage'
    refine ⟨page'', hpage'', hid'.trans hid, ?_⟩
    rcases hkept' with rfl | hmoved
    · exact hkept
    · exact Or.inr hmoved

/-- Rows and pages are untouched. -/
theorem Keeps.of_eq (hevents : t.events = s.events) (hpages : t.pages = s.pages) : Keeps s t where
  rows row hrow := ⟨row, hevents ▸ hrow, rfl, Or.inl rfl⟩
  pages page hpage := ⟨page, hpages ▸ hpage, rfl, Or.inl rfl⟩

theorem deliverable_create (coverage : χ) (producer : π) :
    Deliverable inbox (InboxState.create coverage producer) where
  sound := sound_create coverage producer
  order := by simp [InboxState.create]
  fits := by simp [InboxState.create]
  forgotten := by simp [InboxState.create]
  stored := by simp [InboxState.create]
  unsettled := by simp [InboxState.create]
  pinned := by simp [InboxState.create]

theorem Covered.congr {row : EventRow} (h : Covered inbox s row) (hpages : t.pages = s.pages)
    (hlinks : t.pageEvents = s.pageEvents) : Covered inbox t row := by
  simpa only [Covered, OnPage, hpages, hlinks] using h

theorem Deliverable.congr (h : Deliverable inbox s) (hevents : t.events = s.events)
    (hpages : t.pages = s.pages) (hlinks : t.pageEvents = s.pageEvents)
    (hdenials : t.denials = s.denials) : Deliverable inbox t where
  sound := h.sound.congr hevents hpages hlinks hdenials
  order := hevents ▸ h.order
  fits := hevents ▸ h.fits
  forgotten := by rw [hevents, hdenials]; exact h.forgotten
  stored := by
    rw [hevents]
    exact fun row hrow hstored => (h.stored row hrow hstored).congr hpages hlinks
  unsettled := hpages ▸ h.unsettled
  pinned := hpages ▸ h.pinned

/-! ### The next page -/

/-- A row holds one event. -/
theorem Holds.unique (hinbox : inbox.Faithful) {row : EventRow} {a b : CaptureEvent}
    (ha : Holds inbox row a) (hb : Holds inbox row b) : a = b := by
  obtain ⟨n, hn⟩ := ha.payload
  obtain ⟨m, hm⟩ := hb.payload
  have hsame := congrArg (inbox.decrypt · ("event:" ++ row.eventId))
    (Option.some.inj (hn.symm.trans hm))
  simp only [hinbox.decrypt_encrypt, Option.some.injEq] at hsame
  have hloads := ha.loads
  rw [hsame, hb.loads] at hloads
  exact (Option.some.inj hloads).symm

theorem Holds.openEvent_eq (hinbox : inbox.Faithful) {row : EventRow} {event : CaptureEvent}
    (h : Holds inbox row event) : openEvent inbox row = .ok event := by
  obtain ⟨nonce, hpayload⟩ := h.payload
  simp [openEvent, openValue, hpayload, hinbox.decrypt_encrypt, h.loads]

/-- **Filling a page** takes events from the front of the rows, and stops at the
    end or at the first event that would not fit. -/
theorem fillPage_takes (hinbox : inbox.Faithful) (pageId : String) {rows : List EventRow}
    (hrows : ∀ row ∈ rows, ∃ event, Holds inbox row event) (page : List CaptureEvent) :
    ∃ events, fillPage inbox pageId page rows = .ok (page ++ events) ∧
      List.Forall₂ (Holds inbox) (rows.take events.length) events ∧
      (events = [] ∨ (pageJson pageId (page ++ events)).length ≤ PAGE_BYTES) ∧
      ∀ row ∈ rows[events.length]?, ∀ next, Holds inbox row next →
        PAGE_BYTES < (pageJson pageId (page ++ events ++ [next])).length := by
  induction rows generalizing page with
  | nil => exact ⟨[], by simp [fillPage], by simp, Or.inl rfl, by simp⟩
  | cons row rows ih =>
    obtain ⟨event, hevent⟩ := hrows row List.mem_cons_self
    have hopen := hevent.openEvent_eq hinbox
    by_cases hfits : PAGE_BYTES < (pageJson pageId (page ++ [event])).length
    · refine ⟨[], ?_, by simp, Or.inl rfl, ?_⟩
      · simp [fillPage, hopen, hfits, bind, Except.bind, pure, Except.pure]
      · intro r hr next hnext
        obtain rfl : row = r := by simpa using hr
        rw [hnext.unique hinbox hevent, List.append_nil]
        exact hfits
    · obtain ⟨events, hok, htaken, hsize, hlongest⟩ :=
        ih (fun r hr => hrows r (List.mem_cons_of_mem _ hr)) (page ++ [event])
      have hassoc : page ++ [event] ++ events = page ++ event :: events := by simp
      refine ⟨event :: events, ?_, ?_, Or.inr ?_, ?_⟩
      · rw [← hassoc, ← hok]
        simp [fillPage, hopen, hfits, bind, Except.bind]
      · simpa using And.intro hevent htaken
      · rcases hsize with rfl | hsize
        · exact Nat.le_of_not_lt hfits
        · rwa [hassoc] at hsize
      · simpa only [List.length_cons, List.getElem?_cons_succ, hassoc] using hlongest

/-- The events of a page are pending events from the front of the queue, within
    the limits of a page. -/
structure Admissible (inbox : Inbox) (s : InboxState χ π) (pageId : String)
    (events : List CaptureEvent) : Prop where
  nonempty : events ≠ []
  most : events.length ≤ 50
  taken : List.Forall₂ (Holds inbox) ((queue s).take events.length) events
  fits : (pageJson pageId events).length ≤ PAGE_BYTES

/-- No admissible prefix is longer. -/
structure Longest (inbox : Inbox) (s : InboxState χ π) (pageId : String)
    (events : List CaptureEvent) : Prop where
  admissible : Admissible inbox s pageId events
  longest : ∀ other, Admissible inbox s pageId other → other.length ≤ events.length

theorem mem_queue {row : EventRow} : row ∈ queue s ↔ row ∈ s.events ∧ row.state = .pending := by
  simp [queue]

/-- The events table is already in the order `page` reads. -/
theorem pendingEvents_eq (h : Deliverable inbox s) : pendingEvents s = (queue s).take 50 := by
  have hsorted : (queue s).Pairwise fun a b => a.sequence ≤ b.sequence :=
    (List.Pairwise.sublist List.filter_sublist (List.pairwise_map.mp h.order)).imp Nat.le_of_lt
  rw [pendingEvents]
  exact congrArg (List.take 50) hsorted.insertionSort_eq

theorem queue_holds (h : Deliverable inbox s) :
    ∀ row ∈ queue s, ∃ event, Holds inbox row event := fun row hrow =>
  h.sound.held row (mem_queue.mp hrow).1 (mem_queue.mp hrow).2

/-- What `page` puts on a new page. -/
theorem fillPage_queue (hinbox : inbox.Faithful) (h : Deliverable inbox s) (pageId : String) :
    ∃ events, fillPage inbox pageId [] (pendingEvents s) = .ok events ∧
      List.Forall₂ (Holds inbox) ((queue s).take events.length) events ∧
      events.length ≤ 50 ∧ (events = [] ∨ (pageJson pageId events).length ≤ PAGE_BYTES) ∧
      (events.length < 50 → ∀ row ∈ (queue s)[events.length]?, ∀ next, Holds inbox row next →
        PAGE_BYTES < (pageJson pageId (events ++ [next])).length) := by
  rw [pendingEvents_eq h]
  obtain ⟨events, hok, htaken, hsize, hlongest⟩ := fillPage_takes hinbox pageId
    (fun row (hrow : row ∈ (queue s).take 50) => queue_holds h row (List.mem_of_mem_take hrow)) []
  have hmost : events.length ≤ 50 := by
    have := htaken.length_eq
    simp only [List.length_take] at this
    omega
  rw [List.take_take, Nat.min_eq_left hmost] at htaken
  refine ⟨events, hok, htaken, hmost, hsize, fun hroom row hrow => ?_⟩
  refine hlongest row ?_
  rwa [List.getElem?_take_of_lt hroom]

/-- An admissible prefix that is longer would begin with these events and the
    next one. -/
theorem Admissible.extends (hinbox : inbox.Faithful) {pageId : String}
    {events other : List CaptureEvent} (hother : Admissible inbox s pageId other)
    (htaken : List.Forall₂ (Holds inbox) ((queue s).take events.length) events)
    (hlt : events.length < other.length) :
    ∃ row ∈ (queue s)[events.length]?, ∃ next, Holds inbox row next ∧
      (pageJson pageId (events ++ [next])).length ≤ PAGE_BYTES := by
  have hlength := hother.taken.length_eq
  rw [List.length_take] at hlength
  have hqueue : events.length < (queue s).length := by omega
  have hnext : Holds inbox (queue s)[events.length] other[events.length] := by
    have := hother.taken.get (i := events.length) (by rw [List.length_take]; omega) hlt
    simpa using this
  have hsame : other.take events.length = events := by
    have hfirst := List.forall₂_take events.length hother.taken
    rw [List.take_take, Nat.min_eq_left (Nat.le_of_lt hlt)] at hfirst
    refine List.ext_getElem ?_ fun i hi hi' => ?_
    · rw [List.length_take, Nat.min_eq_left (Nat.le_of_lt hlt)]
    · have hi'' : i < ((queue s).take events.length).length := by
        rw [htaken.length_eq]
        exact hi'
      exact (hfirst.get hi'' hi).unique hinbox (htaken.get hi'' hi')
  refine ⟨_, List.getElem?_eq_getElem hqueue, _, hnext, ?_⟩
  have hpart : events ++ [other[events.length]] ++ other.drop (events.length + 1) = other := by
    have hcut := List.take_append_drop events.length other
    rwa [hsame, List.drop_eq_getElem_cons hlt, ← List.singleton_append, ← List.append_assoc] at hcut
  calc (pageJson pageId (events ++ [other[events.length]])).length
      ≤ (pageJson pageId (events ++ [other[events.length]] ++
          other.drop (events.length + 1))).length := length_pageJson_append ..
    _ = (pageJson pageId other).length := by rw [hpart]
    _ ≤ PAGE_BYTES := hother.fits

/-- **What `page` builds is the longest admissible prefix.** -/
theorem fillPage_longest (hinbox : inbox.Faithful) (h : Deliverable inbox s) {pageId : String}
    {events : List CaptureEvent}
    (hok : fillPage inbox pageId [] (pendingEvents s) = .ok events) (hnonempty : events ≠ []) :
    Longest inbox s pageId events := by
  obtain ⟨events', hok', htaken, hmost, hsize, hlongest⟩ := fillPage_queue hinbox h pageId
  obtain rfl : events' = events := Except.ok.inj (hok'.symm.trans hok)
  refine ⟨⟨hnonempty, hmost, htaken, hsize.resolve_left hnonempty⟩, fun other hother => ?_⟩
  refine Nat.le_of_not_lt fun hlt => ?_
  obtain ⟨row, hrow, next, hnext, hfits⟩ := hother.extends hinbox htaken hlt
  exact absurd (hlongest (Nat.lt_of_lt_of_le hlt hother.most) row hrow next hnext)
    (Nat.not_lt.mpr hfits)

/-- **The head of the queue always fits**, so an empty page means an empty queue. -/
theorem fillPage_empty (hinbox : inbox.Faithful) (h : Deliverable inbox s) {pageId : String}
    (hid : canonicalUuid pageId.toList = true)
    (hok : fillPage inbox pageId [] (pendingEvents s) = .ok []) : queue s = [] := by
  obtain ⟨events, hok', -, -, -, hlongest⟩ := fillPage_queue hinbox h pageId
  obtain rfl : events = [] := Except.ok.inj (hok'.symm.trans hok)
  cases hqueue : queue s with
  | nil => rfl
  | cons row rest =>
    obtain ⟨next, hnext⟩ := queue_holds h row (by simp [hqueue])
    have hbound := h.fits row (mem_queue.mp (by simp [hqueue] : row ∈ queue s)).1 next hnext
    have hover := hlongest (by decide) row (by simp [hqueue]) next hnext
    rw [List.nil_append, length_pageJson_singleton hid] at hover
    simp only [PAGE_BYTES] at hbound hover
    omega

/-- The three answers of `page`. -/
theorem nextPage_cases {result : PageResult} (hok : nextPage inbox call s = .ok (s', result)) :
    (∃ page ∈ s.pages, page.state = .pending ∧ s' = s) ∨
    ((∀ page ∈ s.pages, page.state ≠ .pending) ∧ s' = s ∧ result = .none ∧
      fillPage inbox call.uuid [] (pendingEvents s) = .ok []) ∨
    ∃ events, (∀ page ∈ s.pages, page.state ≠ .pending) ∧ result = .page call.uuid events ∧
      events ≠ [] ∧ fillPage inbox call.uuid [] (pendingEvents s) = .ok events ∧
      s' = { s with
        pages := s.pages ++ [⟨call.uuid, inbox.sha256 (pageJson call.uuid events),
          some (sealValue inbox call (pageJson call.uuid events) ("page:" ++ call.uuid)), none,
          .pending⟩]
        pageEvents := s.pageEvents ++ events.map fun event => ⟨call.uuid, event.eventId⟩ } := by
  unfold nextPage at hok
  split at hok
  · next page hfind =>
    simp only [bind_eq_ok, pure_eq_ok, Prod.mk.injEq] at hok
    obtain ⟨-, -, rfl, -⟩ := hok
    exact Or.inl ⟨page, List.mem_of_find?_eq_some hfind, by simpa using List.find?_some hfind, rfl⟩
  · next hnone =>
    have hnone : ∀ page ∈ s.pages, page.state ≠ .pending := by
      intro page hpage hpending
      exact List.find?_eq_none.mp hnone page hpage (by simpa using hpending)
    simp only [bind_eq_ok] at hok
    obtain ⟨events, hevents, hok⟩ := hok
    split at hok
    · next hempty =>
      subst hempty
      simp only [pure_eq_ok, Prod.mk.injEq] at hok
      exact Or.inr (Or.inl ⟨hnone, hok.1.symm, hok.2.symm, hevents⟩)
    · next hnonempty =>
      simp only [bind_eq_ok, pure_eq_ok, check_eq_ok, Prod.mk.injEq] at hok
      obtain ⟨-, -, -, -, rfl, rfl⟩ := hok
      exact Or.inr (Or.inr ⟨events, hnone, rfl, hnonempty, hevents, rfl⟩)

theorem nextPage_deliverable (hinbox : inbox.Faithful) (h : Deliverable inbox s)
    {result : PageResult} (hok : nextPage inbox call s = .ok (s', result)) :
    Deliverable inbox s' ∧ Keeps s s' := by
  have hsound := (nextPage_sound hinbox h.sound hok).1
  rcases nextPage_cases hok with ⟨-, -, -, rfl⟩ | ⟨-, rfl, -⟩ | ⟨events, -, -, -, -, rfl⟩
  · exact ⟨h, .refl _⟩
  · exact ⟨h, .refl _⟩
  · refine ⟨{ sound := hsound, order := h.order, fits := h.fits, forgotten := h.forgotten
              stored := ?_, unsettled := ?_, pinned := ?_ }, ?_, ?_⟩
    · intro row hrow hstored
      obtain ⟨page, hpage, hsettled, hon, hreceipt⟩ := h.stored row hrow hstored
      exact ⟨page, List.mem_append_left _ hpage, hsettled, List.mem_append_left _ hon, hreceipt⟩
    · intro page hpage hpending
      rcases List.mem_append.mp hpage with hpage | hpage
      · exact h.unsettled page hpage hpending
      · rw [List.mem_singleton.mp hpage]
    · intro page hpage hpending
      rcases List.mem_append.mp hpage with hpage | hpage
      · exact h.pinned page hpage hpending
      · rw [List.mem_singleton.mp hpage]
        exact ⟨_, _, rfl⟩
    · exact fun row hrow => ⟨row, hrow, rfl, Or.inl rfl⟩
    · exact fun page hpage => ⟨page, List.mem_append_left _ hpage, rfl, Or.inl rfl⟩

/-- A pinned page is offered again as it is. -/
theorem nextPage_reconcile (hinbox : inbox.Faithful) (h : Sound inbox s) (call : Call χ)
    {page : PageRow} (hpage : page ∈ s.pages) (hpending : page.state = .pending) {nonce : Nat}
    {raw : Bytes}
    (hpayload : page.payload = some (inbox.encrypt nonce raw ("page:" ++ page.pageId))) :
    nextPage inbox call s = .ok (s, .reconcile raw) := by
  have hfind : s.pages.find? (fun page => decide (page.state = .pending)) = some page := by
    cases hfirst : s.pages.find? (fun page => decide (page.state = .pending)) with
    | none => exact absurd hpending (by simpa using List.find?_eq_none.mp hfirst page hpage)
    | some first =>
      have hfirstPending : first.state = .pending := by simpa using List.find?_some hfirst
      rw [h.onePending first (List.mem_of_find?_eq_some hfirst) page hpage hfirstPending hpending]
  simp [nextPage, hfind, openValue, hpayload, hinbox.decrypt_encrypt, bind, Except.bind, pure,
    Except.pure]

/-- `page` only raises when the disk is full or the new UUID is taken. -/
theorem nextPage_answers (hinbox : inbox.Faithful) (h : Deliverable inbox s)
    (hfresh : ∀ page ∈ s.pages, page.pageId ≠ call.uuid)
    (hfree : PAGE_BYTES * 3 + 65536 ≤ call.free 0) :
    ∃ s' result, nextPage inbox call s = .ok (s', result) := by
  by_cases hpending : ∃ page ∈ s.pages, page.state = .pending
  · obtain ⟨page, hpage, hstate⟩ := hpending
    obtain ⟨nonce, raw, hpayload⟩ := h.pinned page hpage hstate
    exact ⟨s, _, nextPage_reconcile hinbox h.sound call hpage hstate hpayload⟩
  · have hnone : s.pages.find? (fun page => decide (page.state = .pending)) = none := by
      simpa using hpending
    obtain ⟨events, hok, htaken, -, hsize, -⟩ := fillPage_queue hinbox h call.uuid
    by_cases hempty : events = []
    · exact ⟨s, .none, by simp [nextPage, hnone, hok, hempty, bind, Except.bind, pure, Except.pure]⟩
    · -- the events of the page are those of rows of the table
      have hids : events.map (·.eventId) = ((queue s).take events.length).map (·.eventId) := by
        apply List.ext_getElem
        · rw [List.length_map, List.length_map, htaken.length_eq]
        · intro i hi hi'
          rw [List.length_map] at hi hi'
          simpa using (htaken.get hi' hi).eventId
      have hsub : ((queue s).take events.length).Sublist s.events :=
        (List.take_sublist _ _).trans List.filter_sublist
      have hnodup : (events.map (·.eventId)).Nodup := by
        rw [hids]
        exact h.sound.eventIds.sublist (hsub.map _)
      have hexist : ∀ event ∈ events, (s.event? event.eventId).isSome = true := by
        intro event hevent
        have hmem : event.eventId ∈ events.map (·.eventId) := List.mem_map_of_mem hevent
        rw [hids] at hmem
        obtain ⟨row, hrow, hid⟩ := List.mem_map.mp hmem
        exact Option.isSome_iff_exists.mpr
          ⟨row, (event?_eq_some h.sound).mpr ⟨hsub.subset hrow, hid⟩⟩
      have hroom : (pageJson call.uuid events).length * 3 + 65536 ≤ call.free 0 := by
        have := hsize.resolve_left hempty
        omega
      have hpages : s.pages.all (fun page => decide (page.pageId ≠ call.uuid)) = true := by
        simpa using hfresh
      simp only [nextPage, hnone, hok, hempty, check, if_pos hroom, if_pos (And.intro hpages
        (And.intro hnodup hexist)), bind, Except.bind, pure, Except.pure, if_false]
      exact ⟨_, _, rfl⟩

/-! ### Fences -/

theorem Denied.covered {lineage : String} (hd : Denied s s' lineage) {row : EventRow}
    (h : Covered inbox s row) : Covered inbox s' row := by
  obtain ⟨page, hpage, hsettled, hon, hreceipt⟩ := h
  obtain ⟨p, hpages, hp⟩ := hd.pages
  have hkept := Table.exists_mem_update (p := p)
    (f := fun row => { row with state := .fenced, payload := none }) hpage
  -- a settled page is not fenced
  have hno : ¬ p page = true := fun hmatch => by
    have hpending := ((hp page hpage).mp hmatch).1
    rw [hsettled] at hpending
    cases hpending
  rw [if_neg hno, ← hpages] at hkept
  refine ⟨page, hkept, hsettled, ?_, hreceipt⟩
  rw [OnPage, hd.pageEvents]
  exact hon

theorem Denied.deliverable {lineage : String} (hd : Denied s s' lineage)
    (h : Deliverable inbox s) : Deliverable inbox s' where
  sound := hd.sound h.sound
  order := by
    have hsame : s'.events.map (·.sequence) = s.events.map (·.sequence) := by
      rw [hd.events]
      exact Table.map_update fun _ => rfl
    exact hsame ▸ h.order
  fits := by
    intro row hrow event hholds
    rcases hd.row_cases hrow with ⟨-, hnone, -⟩ | ⟨hold, -⟩
    · obtain ⟨nonce, hpayload⟩ := hholds.payload
      rw [hnone] at hpayload
      cases hpayload
    · exact h.fits row hold event hholds
  forgotten := by
    intro row hrow hforgotten
    apply (hd.denials _).mpr
    rcases hd.row_cases hrow with ⟨-, -, hlineage, -⟩ | ⟨hold, -⟩
    · exact Or.inr hlineage
    · exact Or.inl (h.forgotten row hold hforgotten)
  stored := by
    intro row hrow hstored
    rcases hd.row_cases hrow with ⟨hforgotten, -⟩ | ⟨hold, -⟩
    · rw [hforgotten] at hstored
      cases hstored
    · exact hd.covered (h.stored row hold hstored)
  unsettled := by
    intro page hpage hpending
    rcases hd.page_cases hpage with ⟨hfenced, -⟩ | ⟨hold, -⟩
    · rw [hfenced] at hpending
      cases hpending
    · exact h.unsettled page hold hpending
  pinned := by
    intro page hpage hpending
    rcases hd.page_cases hpage with ⟨hfenced, -⟩ | ⟨hold, -⟩
    · rw [hfenced] at hpending
      cases hpending
    · exact h.pinned page hold hpending

/-- A changed row or page of a table is not pending. -/
theorem Denied.keeps {lineage : String} (hd : Denied s s' lineage) : Keeps s s' where
  rows := by
    intro row hrow
    refine ⟨_, hd.events ▸ Table.exists_mem_update hrow, ?_⟩
    split
    · exact ⟨rfl, Or.inr nofun⟩
    · exact ⟨rfl, Or.inl rfl⟩
  pages := by
    intro page hpage
    obtain ⟨p, hpages, -⟩ := hd.pages
    refine ⟨_, hpages ▸ Table.exists_mem_update hpage, ?_⟩
    split
    · exact ⟨rfl, Or.inr nofun⟩
    · exact ⟨rfl, Or.inl rfl⟩

theorem forget_deliverable (h : Deliverable inbox s) (lineage : String) :
    Deliverable inbox (forget inbox call s lineage).1 ∧
      Keeps s (forget inbox call s lineage).1 := by
  unfold forget
  split
  · split
    · next t ht =>
      have hd := deny_eq_some ht
      exact ⟨hd.deliverable h, hd.keeps⟩
    · exact ⟨h.congr rfl rfl rfl rfl, .of_eq rfl rfl⟩
  · exact ⟨h, .refl _⟩

theorem sweep_deliverable (call : Call χ) (h : Deliverable inbox s) (items : List String)
    (retained : Bool) :
    let swept := items.foldl (fun (s, retained) lineage =>
      match deny call s lineage with
      | some s => (s, retained)
      | none => (s, false)) (s, retained)
    Deliverable inbox swept.1 ∧ Keeps s swept.1 := by
  induction items generalizing s retained with
  | nil => exact ⟨h, .refl _⟩
  | cons lineage items ih =>
    simp only [List.foldl_cons]
    cases hdeny : deny call s lineage with
    | none => exact ih h false
    | some t =>
      have hd := deny_eq_some hdeny
      obtain ⟨hswept, hkept⟩ := ih (hd.deliverable h) retained
      exact ⟨hswept, hd.keeps.trans hkept⟩

theorem applyFences_deliverable (h : Deliverable inbox s) {value : FencePage} {retained : Bool}
    (hok : applyFences inbox call s value = .ok (s', retained)) :
    Deliverable inbox s' ∧ Keeps s s' := by
  simp only [applyFences, bind_eq_ok] at hok
  obtain ⟨-, -, -, -, -, -, -, -, -, -, -, -, -, -, hok⟩ := hok
  have hsweep := sweep_deliverable call h value.items true
  split at hok
  · simp only [pure_eq_ok, Prod.mk.injEq] at hok
    obtain ⟨rfl, -⟩ := hok
    split
    · exact ⟨hsweep.1.congr rfl rfl rfl rfl, hsweep.2.trans (.of_eq rfl rfl)⟩
    · exact ⟨hsweep.1.congr rfl rfl rfl rfl, hsweep.2.trans (.of_eq rfl rfl)⟩
  · simp only [pure_eq_ok, Prod.mk.injEq] at hok
    obtain ⟨rfl, -⟩ := hok
    exact ⟨hsweep.1.congr rfl rfl rfl rfl, hsweep.2.trans (.of_eq rfl rfl)⟩

/-! ### Accepting -/

theorem le_foldl_max (xs : List Nat) (a : Nat) :
    a ≤ xs.foldl max a ∧ ∀ x ∈ xs, x ≤ xs.foldl max a := by
  induction xs generalizing a with
  | nil => simp
  | cons x xs ih =>
    obtain ⟨hbase, hrest⟩ := ih (max a x)
    refine ⟨Nat.le_trans (Nat.le_max_left a x) hbase, fun y hy => ?_⟩
    rcases List.mem_cons.mp hy with rfl | hy
    · exact Nat.le_trans (Nat.le_max_right a y) hbase
    · exact hrest y hy

theorem lt_nextSequence {row : EventRow} (hrow : row ∈ s.events) :
    row.sequence < s.nextSequence :=
  Nat.lt_succ_of_le ((le_foldl_max _ 0).2 _ (List.mem_map_of_mem hrow))

/-- A new row under a new id, behind every other. -/
theorem Deliverable.insert (h : Deliverable inbox s) {row : EventRow}
    (hsound : Sound inbox { s with events := s.events ++ [row] })
    (hsequence : row.sequence = s.nextSequence)
    (hfits : ∀ event, Holds inbox row event → (eventJson event).length ≤ PAGE_BYTES - 128)
    (hforgotten : row.state = .forgotten → row.lineage ∈ s.denials)
    (hstored : row.state ≠ .stored) :
    Deliverable inbox { s with events := s.events ++ [row] } where
  sound := hsound
  order := by
    rw [List.map_append, List.pairwise_append]
    refine ⟨h.order, List.pairwise_singleton _ _, ?_⟩
    intro a ha b hb
    obtain ⟨old, hold, rfl⟩ := List.mem_map.mp ha
    obtain rfl : b = row.sequence := by simpa using hb
    rw [hsequence]
    exact lt_nextSequence hold
  fits := by
    intro r hr event hholds
    rcases List.mem_append.mp hr with hr | hr
    · exact h.fits r hr event hholds
    · obtain rfl := List.mem_singleton.mp hr
      exact hfits event hholds
  forgotten := by
    intro r hr hstate
    rcases List.mem_append.mp hr with hr | hr
    · exact h.forgotten r hr hstate
    · obtain rfl := List.mem_singleton.mp hr
      exact hforgotten hstate
  stored := by
    intro r hr hstate
    rcases List.mem_append.mp hr with hr | hr
    · exact h.stored r hr hstate
    · obtain rfl := List.mem_singleton.mp hr
      exact absurd hstate hstored
  unsettled := h.unsettled
  pinned := h.pinned

theorem checkEvent_length {event : CaptureEvent} {raw : Bytes} {lineage : String}
    (h : checkEvent inbox event = .ok (raw, lineage)) :
    (eventJson event).length ≤ PAGE_BYTES - 128 := by
  simp only [checkEvent, bind_eq_ok] at h
  obtain ⟨-, -, h⟩ := h
  split at h
  · cases h
  · simp only [bind_eq_ok, check_eq_ok] at h
    obtain ⟨-, -, -, -, -, hlength, -⟩ := h
    exact hlength

/-- What the loop of `accept` has done with the offers so far. -/
structure Taking (inbox : Inbox) (s : InboxState χ π) (done : List (Offer π))
    (loop : Accepting χ π) : Prop where
  deliverable : Deliverable inbox loop.state
  keeps : Keeps s loop.state
  rows : ∀ event, .event event ∈ done → ∃ row ∈ loop.state.events, row.eventId = event.eventId

theorem acceptOffer_taking (hinbox : inbox.Faithful) {scope : String} {usage : Nat × Nat}
    {fences : Nat × Bool} {done : List (Offer π)} {loop loop' : Accepting χ π} {offer : Offer π}
    (h : Taking inbox s done loop)
    (hok : acceptOffer inbox call scope usage fences loop offer = .ok loop') :
    Taking inbox s (done ++ [offer]) loop' := by
  have hsound := (acceptOffer_sound hinbox h.deliverable.sound hok).1
  have hsplit : ∀ event, .event event ∈ done ++ [offer] →
      .event event ∈ done ∨ offer = .event event := by
    intro event hevent
    simpa [eq_comm] using hevent
  cases offer with
  | malformed => cases hok
  | raises error => cases hok
  | writes f =>
    cases hok
    refine ⟨h.deliverable.congr rfl rfl rfl rfl, h.keeps.trans (.of_eq rfl rfl), ?_⟩
    exact fun event hevent => h.rows event ((hsplit event hevent).resolve_right fun h => by cases h)
  | event event =>
    simp only [acceptOffer, acceptEvent, bind_eq_ok] at hok
    obtain ⟨⟨raw, lineage⟩, hevent, -, -, hok⟩ := hok
    obtain rfl := checkEvent_raw hevent
    split at hok
    · next existing hexisting =>
      simp only [bind_eq_ok, pure_eq_ok] at hok
      obtain ⟨-, -, rfl⟩ := hok
      refine ⟨h.deliverable, h.keeps, fun e he => ?_⟩
      rcases hsplit e he with he | heq
      · exact h.rows e he
      · cases heq
        exact ⟨existing, (event?_eq_some h.deliverable.sound).mp hexisting⟩
    · simp only [bind_eq_ok, pure_eq_ok] at hok
      obtain ⟨-, -, rfl⟩ := hok
      refine ⟨h.deliverable.insert hsound rfl ?_ ?_ ?_, h.keeps.trans ⟨?_, ?_⟩, ?_⟩
      · intro held hheld
        obtain ⟨nonce, hpayload⟩ := hheld.payload
        by_cases hdenied : lineage ∈ loop.state.denials
        · simp [newEvent, hdenied] at hpayload
        · have hsame : Holds inbox (newEvent inbox call loop.state scope lineage event
              (eventJson event) (decide (lineage ∈ loop.state.denials))) event :=
            ⟨rfl, hinbox.loads_event _ _ _ hevent, call.nonce ("event:" ++ event.eventId),
              by simp [newEvent, hdenied, sealValue]⟩
          rw [hheld.unique hinbox hsame]
          exact checkEvent_length hevent
      · by_cases hdenied : lineage ∈ loop.state.denials
        · exact fun _ => hdenied
        · simp [newEvent, hdenied]
      · simp only [newEvent]
        split
        · exact fun h => by cases h
        · exact fun h => by cases h
      · exact fun row hrow => ⟨row, List.mem_append_left _ hrow, rfl, Or.inl rfl⟩
      · exact fun page hpage => ⟨page, hpage, rfl, Or.inl rfl⟩
      · intro e he
        rcases hsplit e he with he | heq
        · obtain ⟨row, hrow, hid⟩ := h.rows e he
          exact ⟨row, List.mem_append_left _ hrow, hid⟩
        · cases heq
          exact ⟨_, List.mem_append_right _ List.mem_cons_self, rfl⟩

/-- **Accepting**: every offered event has a row afterwards. -/
theorem accept_deliverable (hinbox : inbox.Faithful) (h : Deliverable inbox s) {scope : String}
    {events : List (Offer π)} {checkpoint : Except InboxError Bytes}
    {verify : χ × π → Except InboxError (Bool × χ × π)} {count : Nat}
    (hok : accept inbox call s scope events checkpoint verify = .ok (s', count)) :
    Deliverable inbox s' ∧ Keeps s s' ∧
      ∀ event, .event event ∈ events → ∃ row ∈ s'.events, row.eventId = event.eventId := by
  simp only [accept, bind_eq_ok, pure_eq_ok, Prod.mk.injEq] at hok
  obtain ⟨-, -, fences, -, -, -, loop, hloop, -, -, ⟨verified, coverage, producer⟩, -, -, -, encoded,
    -, -, -, -, -, coverage', -, -, -, rfl, -⟩ := hok
  have htaking := foldlM_prefix_invariant (Taking inbox s) events
    (fun done l offer l' _ hl hl' => acceptOffer_taking hinbox hl hl')
    ⟨h, .refl s, by simp⟩ hloop
  exact ⟨htaking.deliverable.congr rfl rfl rfl rfl, htaking.keeps.trans (.of_eq rfl rfl),
    htaking.rows⟩

/-! ### Receipts -/

/-- What part of a receipt has done to the rows and pages of `s`. -/
structure Storing (inbox : Inbox) (s : InboxState χ π) (done : List ReceiptItem)
    (t : InboxState χ π) : Prop where
  settling : Settling inbox s done t
  sequences : t.events.map (·.sequence) = s.events.map (·.sequence)
  keeps : Keeps s t
  rows : ∀ row ∈ t.events, row ∈ s.events ∨ row.payload = none ∧
    (row.state = .forgotten ∧ row.lineage ∈ t.denials ∨
      row.state = .stored ∧ (∃ old ∈ s.events, old.eventId = row.eventId ∧ old.state = .pending) ∧
        ∃ item ∈ done, item.eventId = row.eventId ∧ item.outcome = .stored ∧
          item.lineageId = some row.lineage)
  pages : ∀ page ∈ t.pages, page ∈ s.pages ∨ page.state = .fenced ∧
    ∃ old ∈ s.pages, old.pageId = page.pageId ∧ old.receipt = page.receipt
  settled : ∀ page ∈ s.pages, page.state = .settled → page ∈ t.pages

theorem Storing.fence {done : List ReceiptItem} {u : InboxState χ π} {item : ReceiptItem}
    {lineage : String} (h : Storing inbox s done t) (hd : Denied t u lineage)
    (hsettling : Settling inbox s (done ++ [item]) u) :
    Storing inbox s (done ++ [item]) u where
  settling := hsettling
  sequences := by
    rw [hd.events, ← h.sequences]
    exact Table.map_update fun _ => rfl
  keeps := h.keeps.trans hd.keeps
  rows := by
    intro row hrow
    rcases hd.row_cases hrow with ⟨hforgotten, hnone, hlineage, -⟩ | ⟨hold, -⟩
    · exact Or.inr ⟨hnone, Or.inl ⟨hforgotten, (hd.denials _).mpr (Or.inr hlineage)⟩⟩
    · rcases h.rows row hold with hs | ⟨hnone, ⟨hforgotten, hdenied⟩ |
        ⟨hstored, hwas, i, hi, hitem⟩⟩
      · exact Or.inl hs
      · exact Or.inr ⟨hnone, Or.inl ⟨hforgotten, (hd.denials _).mpr (Or.inl hdenied)⟩⟩
      · exact Or.inr ⟨hnone, Or.inr ⟨hstored, hwas, i, List.mem_append_left _ hi, hitem⟩⟩
  pages := by
    intro page hpage
    obtain ⟨p, hpages, -⟩ := hd.pages
    rw [hpages] at hpage
    rcases Table.mem_update_cases hpage with ⟨old, hold, -, rfl⟩ | ⟨hold, -⟩
    · rcases h.pages old hold with hs | ⟨-, first, hfirst, hid, hreceipt⟩
      · exact Or.inr ⟨rfl, old, hs, rfl, rfl⟩
      · exact Or.inr ⟨rfl, first, hfirst, hid, hreceipt⟩
    · exact h.pages page hold
  settled := by
    intro page hpage hsettled
    have hmem := h.settled page hpage hsettled
    obtain ⟨p, hpages, hp⟩ := hd.pages
    have hkept := Table.exists_mem_update (p := p)
      (f := fun row => { row with state := .fenced, payload := none }) hmem
    have hno : ¬ p page = true := fun hmatch => by
      have hpending := ((hp page hmem).mp hmatch).1
      rw [hsettled] at hpending
      cases hpending
    rwa [if_neg hno, ← hpages] at hkept

theorem applyOutcome_storing {done : List ReceiptItem} {t' : InboxState χ π} {item : ReceiptItem}
    (h : Storing inbox s done t) (hkind : item.outcome ≠ .other)
    (hok : applyOutcome call t item = .ok t') : Storing inbox s (done ++ [item]) t' := by
  have hsettling := applyOutcome_settling h.settling hok
  unfold applyOutcome at hok
  split at hok
  · cases hok
  · next event hevent =>
    obtain ⟨hmem, hid⟩ := (event?_eq_some h.settling.sound).mp hevent
    simp only [bind_eq_ok, check_eq_ok] at hok
    obtain ⟨-, hlineage, hok⟩ := hok
    split at hok
    · obtain ⟨u, hu⟩ := deny_isSome call hmem
      rw [hu, Option.getD_some] at hok
      cases pure_eq_ok.mp hok
      exact h.fence (deny_eq_some hu) hsettling
    · next hnot =>
      have hstored : item.outcome = .stored := by
        cases hcase : item.outcome with
        | stored => rfl
        | forgotten => exact absurd hcase hnot
        | other => exact absurd hcase hkind
      cases pure_eq_ok.mp hok
      refine ⟨hsettling, ?_, h.keeps.trans ⟨?_, ?_⟩, ?_, h.pages, h.settled⟩
      · rw [← h.sequences]
        exact Table.map_update fun _ => rfl
      · intro row hrow
        refine ⟨_, Table.exists_mem_update hrow, ?_⟩
        split
        · exact ⟨rfl, Or.inr fun h => by cases h⟩
        · exact ⟨rfl, Or.inl rfl⟩
      · exact fun page hpage => ⟨page, hpage, rfl, Or.inl rfl⟩
      · intro row hrow
        rcases Table.mem_update_cases hrow with ⟨old, hold, hmatch, rfl⟩ | ⟨hold, -⟩
        · simp only [decide_eq_true_eq] at hmatch
          have hsame := Table.eq_of_key h.settling.sound.eventIds hold hmem
            (hmatch.1.trans hid.symm)
          -- a pending row has not been touched by the items before
          have hfirst : old ∈ s.events := by
            rcases h.rows old hold with hs | ⟨hnone, ⟨hf, -⟩ | ⟨hf, -⟩⟩
            · exact hs
            · rw [hmatch.2] at hf
              cases hf
            · rw [hmatch.2] at hf
              cases hf
          refine Or.inr ⟨rfl, Or.inr ⟨rfl, ⟨old, hfirst, rfl, hmatch.2⟩, item, by simp,
            hmatch.1.symm, hstored, ?_⟩⟩
          rw [hlineage, hsame]
        · rcases h.rows row hold with hs | ⟨hnone, hcase | ⟨hst, hwas, i, hi, hitem⟩⟩
          · exact Or.inl hs
          · exact Or.inr ⟨hnone, Or.inl hcase⟩
          · exact Or.inr ⟨hnone, Or.inr ⟨hst, hwas, i, List.mem_append_left _ hi, hitem⟩⟩

/-- A page is settled with the receipt it holds, or with this one. -/
def settlePage (kept : Bytes) (page : PageRow) : PageRow :=
  { page with state := .settled, payload := none, receipt := page.receipt.or (some kept) }

/-- **A stored row is covered once its page is settled**: by the receipt that
    stored it. -/
theorem Storing.covered {receipt : Receipt} {page : PageRow}
    (h : Storing inbox s receipt.items t) (hs : Deliverable inbox s)
    (hvalid : receiptValid inbox receipt = true) (hpage : page ∈ s.pages)
    (hpageId : page.pageId = receipt.pageId) (hfenced : page.state ≠ .fenced)
    (hlinked : ∀ item ∈ receipt.items, item.eventId ∈ s.eventsOf receipt.pageId)
    (call : Call χ) (coverage : χ) {row : EventRow} (hrow : row ∈ t.events)
    (hstored : row.state = .stored) :
    Covered inbox { t with
      pages := Table.update t.pages (·.pageId = receipt.pageId) (settlePage
        (sealValue inbox call (inbox.receiptJson receipt) ("receipt:" ++ receipt.pageId)))
      coverage := coverage } row := by
  rcases h.rows row hrow with hold | ⟨-, ⟨hforgotten, -⟩ | ⟨-, ⟨old, hold, hid, hpending⟩, item,
    hitem, hnamed⟩⟩
  · -- it was covered before, by a receipt that stays
    obtain ⟨p, hp, hsettled, hon, nonce, first, hreceipt, hfirst⟩ := hs.stored row hold hstored
    have hkept := Table.exists_mem_update (p := fun page => decide (page.pageId = receipt.pageId))
      (f := settlePage (sealValue inbox call (inbox.receiptJson receipt)
        ("receipt:" ++ receipt.pageId))) (h.settled p hp hsettled)
    have hon' : OnPage t p.pageId row := by
      rw [OnPage, h.settling.pageEvents]
      exact hon
    split at hkept
    · exact ⟨_, hkept, rfl, hon', nonce, first, by simp [settlePage, hreceipt], hfirst⟩
    · exact ⟨p, hkept, hsettled, hon', nonce, first, hreceipt, hfirst⟩
  · rw [hstored] at hforgotten
    cases hforgotten
  · have hlink : OnPage s page.pageId row := by
      rw [OnPage, hpageId, ← hnamed.1]
      exact mem_eventsOf.mp (hlinked item hitem)
    -- only a pending page still has pending rows, and it holds no receipt
    have hstate : page.state = .pending := by
      cases hcase : page.state with
      | pending => rfl
      | settled =>
        refine absurd hpending (hs.sound.settledPage page hpage hcase old hold ?_)
        rw [OnPage, hid]
        exact hlink
      | fenced => exact absurd hcase hfenced
    have hnone := hs.unsettled page hpage hstate
    obtain ⟨now, hnow, hnowId, -⟩ := h.keeps.pages page hpage
    have hnowNone : now.receipt = none := by
      rcases h.pages now hnow with hsame | ⟨-, first, hfirst, hfirstId, hreceipt⟩
      · rw [Table.eq_of_key hs.sound.pageIds hsame hpage hnowId, hnone]
      · rw [← hreceipt, Table.eq_of_key hs.sound.pageIds hfirst hpage (hfirstId.trans hnowId), hnone]
    have hnowReceipt : now.pageId = receipt.pageId := hnowId.trans hpageId
    have hkept := Table.exists_mem_update (p := fun page => decide (page.pageId = receipt.pageId))
      (f := settlePage (sealValue inbox call (inbox.receiptJson receipt)
        ("receipt:" ++ receipt.pageId))) hnow
    rw [if_pos (decide_eq_true hnowReceipt)] at hkept
    refine ⟨_, hkept, rfl, ?_, call.nonce ("receipt:" ++ receipt.pageId), receipt, ?_, hvalid,
      hnowReceipt.symm, item, hitem, hnamed⟩
    · show ⟨now.pageId, row.eventId⟩ ∈ t.pageEvents
      rw [h.settling.pageEvents, hnowId]
      exact hlink
    · simp only [settlePage, hnowNone, Option.none_or, hnowReceipt]
      rfl

/-- The first receipt of a page names what it stores; later ones change nothing. -/
theorem acknowledge_deliverable (h : Deliverable inbox s) {receipt : Receipt}
    (hok : acknowledge inbox call s receipt = .ok s') : Deliverable inbox s' ∧ Keeps s s' := by
  have hsound' := (acknowledge_sound h.sound hok).1
  unfold acknowledge at hok
  simp only [bind_eq_ok, check_eq_ok] at hok
  obtain ⟨-, hvalid, hok⟩ := hok
  split at hok
  · cases hok
  · next page hfind =>
    obtain ⟨hpage, hpageId⟩ := (Table.find?_key h.sound.pageIds).mp hfind
    simp only [bind_eq_ok, check_eq_ok, pure_eq_ok] at hok
    obtain ⟨-, ⟨-, hlinked⟩, -, hfenced, previous, -, -, -, t, ht, coverage, -, rfl⟩ := hok
    have hkinds : ∀ item ∈ receipt.items, item.outcome ≠ .other := by
      simp only [receiptValid, Bool.and_eq_true, List.all_eq_true, decide_eq_true_eq] at hvalid
      exact fun item hitem => (hvalid.1.2 item hitem).1
    have hstoring : Storing inbox s receipt.items t :=
      foldlM_prefix_invariant (Storing inbox s) receipt.items
        (fun done u item u' hitem hu hu' => applyOutcome_storing hu (hkinds item hitem) hu')
        ⟨⟨h.sound, rfl, fun _ hl => hl, by simp⟩, rfl, .refl s, fun _ => Or.inl,
          fun _ => Or.inl, fun _ hp _ => hp⟩ ht
    -- a page that is still pending is a page of `s`
    have hpending : ∀ p ∈ Table.update t.pages (·.pageId = receipt.pageId) (settlePage
        (sealValue inbox call (inbox.receiptJson receipt) ("receipt:" ++ receipt.pageId))),
        p.state = .pending → p ∈ s.pages := by
      intro p hp hstate
      rcases Table.mem_update_cases hp with ⟨old, -, -, rfl⟩ | ⟨hold, -⟩
      · cases hstate
      · rcases hstoring.pages p hold with hs | ⟨hpfenced, -⟩
        · exact hs
        · rw [hpfenced] at hstate
          cases hstate
    refine ⟨{ sound := hsound', order := ?_, fits := ?_, forgotten := ?_, stored := ?_
              unsettled := ?_, pinned := ?_ }, hstoring.keeps.trans ⟨?_, ?_⟩⟩
    · exact hstoring.sequences ▸ h.order
    · intro row hrow event hholds
      rcases hstoring.rows row hrow with hs | ⟨hnone, -⟩
      · exact h.fits row hs event hholds
      · obtain ⟨nonce, hpayload⟩ := hholds.payload
        rw [hnone] at hpayload
        cases hpayload
    · intro row hrow hforgotten
      rcases hstoring.rows row hrow with hs | ⟨-, ⟨-, hdenied⟩ | ⟨hstored, -⟩⟩
      · exact hstoring.settling.denials _ (h.forgotten row hs hforgotten)
      · exact hdenied
      · rw [hstored] at hforgotten
        cases hforgotten
    · exact fun row hrow hstored =>
        hstoring.covered h hvalid hpage hpageId hfenced hlinked call coverage hrow hstored
    · exact fun p hp hstate => h.unsettled p (hpending p hp hstate) hstate
    · exact fun p hp hstate => h.pinned p (hpending p hp hstate) hstate
    · exact fun row hrow => ⟨row, hrow, rfl, Or.inl rfl⟩
    · intro p hp
      refine ⟨_, Table.exists_mem_update hp, ?_⟩
      split
      · exact ⟨rfl, Or.inr fun h => by cases h⟩
      · exact ⟨rfl, Or.inl rfl⟩

/-! ### Whole runs -/

/-- **Every operation, succeeding or raising**, keeps the delivery tables. -/
theorem next_deliverable (hinbox : inbox.Faithful) (h : Deliverable inbox s)
    (op : Operation χ π) : Deliverable inbox (s.next inbox op) ∧ Keeps s (s.next inbox op) := by
  cases op with
  | accept call scope events checkpoint verify =>
    simp only [InboxState.next]
    split
    · next hok =>
      obtain ⟨hdeliverable, hkeeps, -⟩ := accept_deliverable hinbox h hok
      exact ⟨hdeliverable, hkeeps⟩
    · exact ⟨h, .refl s⟩
  | page call =>
    simp only [InboxState.next]
    split
    · next hok => exact nextPage_deliverable hinbox h hok
    · exact ⟨h, .refl s⟩
  | acknowledge call receipt =>
    simp only [InboxState.next]
    split
    · next hok => exact acknowledge_deliverable h hok
    · exact ⟨h, .refl s⟩
  | forget call lineage => exact forget_deliverable h lineage
  | applyFences call value =>
    simp only [InboxState.next]
    split
    · next hok => exact applyFences_deliverable h hok
    · exact ⟨h, .refl s⟩
  | interrupted => exact ⟨h, .refl s⟩

theorem run_deliverable (hinbox : inbox.Faithful) (coverage : χ) (producer : π)
    (ops later : List (Operation χ π)) :
    Deliverable inbox ((inboxMachine inbox coverage producer).run ops) ∧
      Keeps ((inboxMachine inbox coverage producer).run ops)
        ((inboxMachine inbox coverage producer).run (ops ++ later)) :=
  (inboxMachine inbox coverage producer).run_extends (Deliverable inbox) Keeps .refl
    (fun _ _ _ => Keeps.trans) (deliverable_create coverage producer)
    (fun _ op hs => next_deliverable hinbox hs op) ops later

/-- An accepted event is denied, pending with its payload, or covered. -/
def Accounted (inbox : Inbox) (s : InboxState χ π) (row : EventRow) : Prop :=
  row.lineage ∈ s.denials ∨ (row.state = .pending ∧ ∃ event, Holds inbox row event) ∨
    (row.state = .stored ∧ Covered inbox s row)

theorem Deliverable.accounted (h : Deliverable inbox s) {row : EventRow} (hrow : row ∈ s.events) :
    Accounted inbox s row := by
  cases hstate : row.state with
  | pending => exact Or.inr (Or.inl ⟨hstate, h.sound.held row hrow hstate⟩)
  | stored => exact Or.inr (Or.inr ⟨hstate, h.stored row hrow hstate⟩)
  | forgotten => exact Or.inl (h.forgotten row hrow hstate)

/-- A page stays pinned until it is settled or fenced. -/
theorem Keeps.pinned (hinbox : inbox.Faithful) (h : Keeps s t) (ht : Sound inbox t)
    {page : PageRow} (hpage : page ∈ s.pages) {nonce : Nat} {raw : Bytes}
    (hpayload : page.payload = some (inbox.encrypt nonce raw ("page:" ++ page.pageId)))
    (hopen : ∀ now ∈ t.pages, now.pageId = page.pageId → now.state ≠ .settled ∧ now.state ≠ .fenced)
    (call : Call χ) : nextPage inbox call t = .ok (t, .reconcile raw) := by
  obtain ⟨now, hnow, hid, hkept⟩ := h.pages page hpage
  have hpending : now.state = .pending := by
    obtain ⟨hsettled, hfenced⟩ := hopen now hnow hid
    cases hstate : now.state with
    | pending => rfl
    | settled => exact absurd hstate hsettled
    | fenced => exact absurd hstate hfenced
  obtain rfl := hkept.resolve_right (not_not_intro hpending)
  exact nextPage_reconcile hinbox ht call hnow hpending hpayload

/-- **Capture delivery.**  Along every run: each accepted event is denied, pending,
    or covered by an acknowledged receipt; `page` answers as long as there is space,
    and finds nothing only when nothing is pending; a page stays pinned, byte for
    byte, until it is settled or fenced, and a new one is the longest admissible
    prefix of the queue; and an `accept` whose transaction fails changes nothing. -/
theorem capture_delivery (inbox : Inbox) (hinbox : inbox.Faithful) (coverage : χ) (producer : π)
    (ops : List (Operation χ π)) :
    let run := (inboxMachine inbox coverage producer).run
    (∀ call scope events checkpoint verify s' count,
      accept inbox call (run ops) scope events checkpoint verify = .ok (s', count) →
      ∀ event, .event event ∈ events → ∀ later,
        ∃ row ∈ (run (ops ++ .accept call scope events checkpoint verify :: later)).events,
          row.eventId = event.eventId ∧
          Accounted inbox (run (ops ++ .accept call scope events checkpoint verify :: later)) row) ∧
    (∀ row ∈ (run ops).events, Accounted inbox (run ops) row ∧ ∀ later,
      ∃ row' ∈ (run (ops ++ later)).events, row'.identity = row.identity ∧
        (row' = row ∨ row'.state ≠ .pending)) ∧
    (∀ call, (∀ page ∈ (run ops).pages, page.pageId ≠ call.uuid) →
      PAGE_BYTES * 3 + 65536 ≤ call.free 0 →
      ∃ s' result, nextPage inbox call (run ops) = .ok (s', result)) ∧
    (∀ call s', canonicalUuid call.uuid.toList = true →
      nextPage inbox call (run ops) = .ok (s', .none) →
      ∀ row ∈ (run ops).events, row.state ≠ .pending) ∧
    (∀ call s' pageId events, nextPage inbox call (run ops) = .ok (s', .page pageId events) →
      (∀ page ∈ (run ops).pages, page.state ≠ .pending) ∧
      Longest inbox (run ops) pageId events ∧
      ∀ later, (∀ page ∈ (run (ops ++ .page call :: later)).pages, page.pageId = pageId →
          page.state ≠ .settled ∧ page.state ≠ .fenced) →
        ∀ call', nextPage inbox call' (run (ops ++ .page call :: later)) =
          .ok (run (ops ++ .page call :: later), .reconcile (pageJson pageId events))) ∧
    (∀ (κ : Type) (readings : Readings χ π κ) call scope events checkpoint verify error,
      accept inbox call (run ops) scope events checkpoint verify = .error error →
      acceptReply inbox call readings (run ops) scope events checkpoint verify =
        (run ops, .error error)) := by
  intro run
  have hrun := run_deliverable hinbox coverage producer
  have hdeliverable : Deliverable inbox (run ops) := (hrun ops []).1
  -- the state right after an operation, and every later one
  have hafter : ∀ op later, Keeps ((run ops).next inbox op) (run (ops ++ op :: later)) := by
    intro op later
    have hkeeps := (hrun (ops ++ [op]) later).2
    rwa [Machine.run_concat, List.append_assoc] at hkeeps
  refine ⟨?_, ?_, fun call => nextPage_answers hinbox hdeliverable, ?_, ?_, ?_⟩
  · intro call scope events checkpoint verify s' count hok event hevent later
    have hkeeps := hafter (.accept call scope events checkpoint verify) later
    simp only [InboxState.next, hok] at hkeeps
    obtain ⟨row, hrow, hid⟩ := (accept_deliverable hinbox hdeliverable hok).2.2 event hevent
    obtain ⟨row', hrow', hsame, -⟩ := hkeeps.rows row hrow
    simp only [EventRow.identity, Prod.mk.injEq] at hsame
    exact ⟨row', hrow', hsame.2.1.trans hid, (hrun _ []).1.accounted hrow'⟩
  · exact fun row hrow => ⟨hdeliverable.accounted hrow, fun later => (hrun ops later).2.rows row hrow⟩
  · intro call s' huuid hok row hrow hpending
    rcases nextPage_cases hok with ⟨page, hpage, hstate, -⟩ | ⟨-, -, -, hempty⟩ | ⟨events, -, h, -⟩
    · obtain ⟨nonce, raw, hpayload⟩ := hdeliverable.pinned page hpage hstate
      rw [nextPage_reconcile hinbox hdeliverable.sound call hpage hstate hpayload] at hok
      simp at hok
    · have hmem := mem_queue.mpr ⟨hrow, hpending⟩
      rw [fillPage_empty hinbox hdeliverable huuid hempty] at hmem
      cases hmem
    · cases h
  · intro call s' pageId events hok
    have hkeeps := hafter (.page call)
    simp only [InboxState.next, hok] at hkeeps
    rcases nextPage_cases hok with ⟨page, hpage, hstate, -⟩ | ⟨-, -, h, -⟩ |
      ⟨events', hnone, h, hnonempty, hfill, hs'⟩
    · obtain ⟨nonce, raw, hpayload⟩ := hdeliverable.pinned page hpage hstate
      rw [nextPage_reconcile hinbox hdeliverable.sound call hpage hstate hpayload] at hok
      simp at hok
    · cases h
    · cases h
      refine ⟨hnone, fillPage_longest hinbox hdeliverable hfill hnonempty, ?_⟩
      intro later hopen call'
      subst hs'
      exact (hkeeps later).pinned hinbox (hrun _ []).1.sound
        (List.mem_append_right _ List.mem_cons_self) rfl hopen call'
  · intro κ readings call scope events checkpoint verify error herror
    rw [acceptReply, herror]

/-! ### A run -/

def sampleEvent : CaptureEvent :=
  ⟨String.ofList (List.replicate 64 'a'), sampleScope, utf8 "null"⟩

/-- An inbox whose policy selects the one event above. -/
def deliveryInbox : Inbox :=
  { sampleInbox with
    sha256 := fun _ => sampleEvent.eventId
    selectedItem := fun scope item =>
      if scope = sampleScope ∧ item = utf8 "null" then some ⟨utf8 "null", "", 0⟩ else none
    loadsEvent := fun raw => if raw = eventJson sampleEvent then some sampleEvent else none }

theorem deliveryInbox_faithful : deliveryInbox.Faithful where
  decrypt_encrypt := sampleInbox_faithful.decrypt_encrypt
  loads_event := by
    intro event raw lineage hok
    obtain rfl := checkEvent_raw hok
    have hevent : event = sampleEvent := by
      simp only [checkEvent, bind_eq_ok] at hok
      obtain ⟨-, -, hok⟩ := hok
      split at hok
      · cases hok
      · next selected hselected =>
        simp only [bind_eq_ok, check_eq_ok] at hok
        obtain ⟨-, -, -, hid, -⟩ := hok
        simp only [deliveryInbox, Option.ite_none_right_eq_some] at hselected
        obtain ⟨⟨hscope, hitem⟩, -⟩ := hselected
        cases event
        simp only at hid hscope hitem
        subst hid hscope hitem
        rfl
    simp [deliveryInbox, hevent]

def sampleAccept (call : Call Unit) : Operation Unit Unit :=
  .accept call sampleScope [.event sampleEvent] (.ok (utf8 "\x7b\x7d")) fun (c, p) => .ok (true, c, p)

/-- The event is accepted, sent on a page and stored. -/
def sampleDelivery : List (Operation Unit Unit) :=
  [.page sampleCall, .acknowledge sampleCall ⟨true, sampleInbox.grantId, sampleInbox.sourceId,
    sampleCall.uuid, [⟨sampleEvent.eventId, .stored, some sampleEvent.eventId,
      some sampleInbox.sourceId, some sampleInbox.grantId⟩]⟩]

theorem capture_delivery_sample :
    ∃ row ∈ ((inboxMachine deliveryInbox () ()).run (sampleAccept sampleCall :: sampleDelivery)).events,
      row.eventId = sampleEvent.eventId ∧ Accounted deliveryInbox
        ((inboxMachine deliveryInbox () ()).run (sampleAccept sampleCall :: sampleDelivery)) row := by
  have hok : (accept deliveryInbox sampleCall (.create () ()) sampleScope [.event sampleEvent]
      (.ok (utf8 "\x7b\x7d")) fun (c, p) => .ok (true, c, p)).toBool = true := by decide +kernel
  cases haccept : accept deliveryInbox sampleCall (.create () ()) sampleScope [.event sampleEvent]
      (.ok (utf8 "\x7b\x7d")) fun (c, p) => .ok (true, c, p) with
  | error e =>
    rw [haccept] at hok
    cases hok
  | ok result =>
    exact (capture_delivery deliveryInbox deliveryInbox_faithful () () []).1 _ _ _ _ _ _ _ haccept
      sampleEvent (by simp) sampleDelivery

/-- Limits that `Limits` permits and `CaptureHistory` does not. -/
theorem wide_limits :
    1 ≤ 268435456 ∧ 1 ≤ 536870912 ∧ 1 ≤ 100000 ∧ 1 ≤ 10000 := by decide

def wideCall : Call Unit :=
  { sampleCall with
    limits := ⟨268435456, 2 ^ 53, 536870912, 100000, 10000, wide_limits, by decide⟩ }

def sampleReadings : Readings Unit Unit Unit where
  producerEvents _ := 0
  fragments _ := 0
  coverageScopes _ := []
  coverage _ _ := .ok ()

/-- **The status is read after the commit**: `accept` raises although the event and
    the checkpoint are kept. -/
theorem accept_raises_committed :
    let reply := acceptReply deliveryInbox wideCall sampleReadings (.create () ()) sampleScope
      [.event sampleEvent] (.ok (utf8 "\x7b\x7d")) fun (c, p) => .ok (true, c, p)
    reply.2.toBool = false ∧ reply.1.events.length = 1 ∧ reply.1.checkpoints.length = 1 := by
  decide +kernel

end Mnemion.Capture
