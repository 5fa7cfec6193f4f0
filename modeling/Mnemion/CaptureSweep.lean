/-
  Mnemion/CaptureSweep.lean
  =========================
  **Fences arrive in sweeps and singly** (`connectors/capture_delivery.py`).  The service
  answers with its fences behind the saved cursor, in their order; between its answers
  `forget` may bring any of them.  A page that is retained moves the cursor, one that is
  not sets the pause (`applyFences_answer`).
-/
import Mnemion.CaptureFence
import Mnemion.PythonStrings
import Mathlib.Data.String.Basic

namespace Mnemion.Capture

open Outcome PythonText

variable {χ π : Type}

/-! ### The service's side -/

/-- What `deliver` asks for. -/
def FENCE_LIMIT : Nat := 100

/-- `fences` of the service: those behind the cursor, ordered. -/
def serverFences (denied : List String) (after : Option Bytes) (limit : Nat) : FencePage :=
  let rows := ((denied.dedup.filter fun lineage => after.all fun cursor => decide (cursor < utf8 lineage)).insertionSort
    (· ≤ ·)).take (limit + 1)
  { items := rows.take limit
    nextCursor := if limit < rows.length then rows[limit - 1]? else none }

/-- An inbox and the fences of its service; `delivered` are those that have reached the
    inbox. -/
structure SweepState (χ π : Type) where
  inbox : InboxState χ π
  denied : List String
  delivered : List String

inductive SweepStep (χ π : Type) where
  | call (operation : Operation χ π)
  /-- The service denies a lineage. -/
  | deny (lineage : String)

/-- The page is what the service answers to the saved cursor. -/
def SweepState.answered (inbox : Inbox) (s : SweepState χ π) (value : FencePage) : Bool :=
  match fenceCursor inbox s.inbox with
  | .ok cursor => value = serverFences s.denied cursor FENCE_LIMIT
  | .error _ => false

/-- The lineages a receipt calls forgotten. -/
def Receipt.forgotten (receipt : Receipt) : List String :=
  (receipt.items.filter (·.outcome = .forgotten)).filterMap (·.lineageId)

def SweepState.next (inbox : Inbox) (s : SweepState χ π) : SweepStep χ π → SweepState χ π
  | .deny lineage => if lineageText lineage then { s with denied := s.denied ++ [lineage] } else s
  | .call (.applyFences call value) =>
    if s.answered inbox value then
      { s with
        inbox := s.inbox.next inbox (.applyFences call value)
        delivered := s.delivered ++ value.items }
    else s
  | .call (.forget call lineage) =>
    { s with
      inbox := s.inbox.next inbox (.forget call lineage)
      -- what the service has not denied is no fence
      delivered := if lineage ∈ s.denied then s.delivered ++ [lineage] else s.delivered }
  | .call (.acknowledge call receipt) =>
    match Capture.acknowledge inbox call s.inbox receipt with
    | .ok t => { s with inbox := t, delivered := s.delivered ++ receipt.forgotten }
    | .error _ => s
  | .call operation => { s with inbox := s.inbox.next inbox operation }

/-- One inbox and its service. -/
def sweepMachine (inbox : Inbox) (coverage : χ) (producer : π) :
    Machine (SweepState χ π) (SweepStep χ π) where
  init := ⟨.create coverage producer, [], []⟩
  next := SweepState.next inbox

/-! ### The order of lineages -/

theorem map_lt_map {f : Char → UInt8} {P : Char → Prop}
    (hf : ∀ a b, P a → P b → a < b → f a < f b) :
    ∀ {xs ys : List Char}, (∀ c ∈ xs, P c) → (∀ c ∈ ys, P c) → xs < ys → xs.map f < ys.map f
  | [], [], _, _, h => absurd h (List.lt_irrefl [])
  | [], y :: ys, _, _, _ => List.nil_lt_cons _ _
  | x :: xs, [], _, _, h => absurd h (List.not_lt_nil _)
  | x :: xs, y :: ys, hxs, hys, h => by
    rw [List.map_cons, List.map_cons, List.cons_lt_cons_iff]
    rcases List.cons_lt_cons_iff.mp h with hlt | ⟨rfl, hrest⟩
    · exact Or.inl (hf x y (hxs x (List.mem_cons_self ..)) (hys y (List.mem_cons_self ..)) hlt)
    · refine Or.inr ⟨rfl, ?_⟩
      exact map_lt_map hf (fun c hc => hxs c (List.mem_cons_of_mem _ hc))
        (fun c hc => hys c (List.mem_cons_of_mem _ hc)) hrest

theorem isLowerHex_lt {c : Char} (h : isLowerHex c = true) : c.toNat < 128 := by
  simp only [isLowerHex, Bool.or_eq_true, Bool.and_eq_true, decide_eq_true_eq] at h
  rcases h with ⟨-, h⟩ | ⟨-, h⟩
  · exact Nat.lt_of_le_of_lt (show c.toNat ≤ '9'.toNat from h) (by decide)
  · exact Nat.lt_of_le_of_lt (show c.toNat ≤ 'f'.toNat from h) (by decide)

theorem lineageText_lt {lineage : String} (h : lineageText lineage = true) {c : Char}
    (hc : c ∈ lineage.toList) : c.toNat < 128 := by
  simp only [lineageText, hexText, Bool.and_eq_true, List.all_eq_true] at h
  exact isLowerHex_lt (h.2 c hc)

theorem utf8_lineage {lineage : String} (h : lineageText lineage = true) :
    utf8 lineage = lineage.toList.map fun c => UInt8.ofNat c.toNat := by
  rw [utf8, List.map_eq_flatMap]
  exact List.flatMap_congr fun c hc => utf8EncodeChar_ascii (lineageText_lt h hc)

/-- Hexadecimal texts order as their bytes. -/
theorem utf8_lt {a b : String} (ha : lineageText a = true) (hb : lineageText b = true) (h : a < b) :
    utf8 a < utf8 b := by
  rw [utf8_lineage ha, utf8_lineage hb]
  apply map_lt_map (P := fun c => c.toNat < 128)
  · intro c d hc hd hlt
    rw [UInt8.lt_iff_toNat_lt, UInt8.toNat_ofNat', UInt8.toNat_ofNat',
      Nat.mod_eq_of_lt (by omega), Nat.mod_eq_of_lt (by omega)]
    exact hlt
  · exact fun c hc => lineageText_lt ha hc
  · exact fun c hc => lineageText_lt hb hc
  · exact String.lt_iff_toList_lt.mp h

/-! ### Answers -/

section

variable {denied : List String} {after : Option Bytes} {limit : Nat}

/-- What the service looks through. -/
def behind (denied : List String) (after : Option Bytes) : List String :=
  (denied.dedup.filter fun lineage => after.all fun cursor => decide (cursor < utf8 lineage)).insertionSort
    (· ≤ ·)

theorem mem_behind {lineage : String} : lineage ∈ behind denied after ↔
    lineage ∈ denied ∧ ∀ cursor ∈ after, cursor < utf8 lineage := by
  rw [behind, List.mem_insertionSort, List.mem_filter, List.mem_dedup]
  refine and_congr_right fun _ => ?_
  cases after <;> simp

theorem behind_sorted : (behind denied after).Pairwise (· < ·) := by
  have hsorted := List.pairwise_insertionSort (· ≤ ·)
    (denied.dedup.filter fun lineage => after.all fun cursor => decide (cursor < utf8 lineage))
  have hnodup : (behind denied after).Nodup :=
    (List.perm_insertionSort _ _).nodup_iff.mpr ((List.nodup_dedup denied).filter _)
  exact (hsorted.and hnodup).imp fun h => lt_of_le_of_ne h.1 h.2

theorem serverFences_items : (serverFences denied after limit).items = (behind denied after).take limit := by
  show ((behind denied after).take (limit + 1)).take limit = _
  rw [List.take_take, Nat.min_eq_left (Nat.le_succ limit)]

theorem serverFences_nextCursor : (serverFences denied after limit).nextCursor =
    if limit < (behind denied after).length then (behind denied after)[limit - 1]? else none := by
  show (if limit < ((behind denied after).take (limit + 1)).length then
    ((behind denied after).take (limit + 1))[limit - 1]? else none) = _
  rw [List.length_take, List.getElem?_take_of_lt (by omega)]
  by_cases hmore : limit < (behind denied after).length
  · rw [if_pos hmore, if_pos (by omega)]
  · rw [if_neg hmore, if_neg (by omega)]

theorem mem_serverFences {lineage : String} (h : lineage ∈ (serverFences denied after limit).items) :
    lineage ∈ denied ∧ ∀ cursor ∈ after, cursor < utf8 lineage := by
  rw [serverFences_items] at h
  exact mem_behind.mp (List.mem_of_mem_take h)

/-- A fence that is left out comes behind the next cursor. -/
theorem serverFences_rest (hlimit : 0 < limit) {lineage : String} (hmem : lineage ∈ behind denied after)
    (hout : lineage ∉ (serverFences denied after limit).items) :
    ∃ last, (serverFences denied after limit).nextCursor = some last ∧ last < lineage := by
  rw [serverFences_items] at hout
  rw [serverFences_nextCursor]
  obtain ⟨i, hi, rfl⟩ := List.getElem_of_mem hmem
  have hlate : limit ≤ i := by
    by_contra hearly
    exact hout (List.mem_take_iff_getElem.mpr ⟨i, by omega, rfl⟩)
  refine ⟨(behind denied after)[limit - 1], ?_, ?_⟩
  · rw [if_pos (by omega), List.getElem?_eq_getElem (by omega)]
  · exact List.pairwise_iff_getElem.mp behind_sorted _ _ _ _ (by omega)

theorem serverFences_last (hlimit : 0 < limit) : (serverFences denied after limit).nextCursor = none ∨
    (serverFences denied after limit).items ≠ [] ∧
      (serverFences denied after limit).nextCursor = (serverFences denied after limit).items.getLast? := by
  rw [serverFences_nextCursor, serverFences_items]
  split
  · next hmore =>
    have hlength : ((behind denied after).take limit).length = limit := by
      rw [List.length_take]
      omega
    refine Or.inr ⟨fun hnil => ?_, ?_⟩
    · rw [hnil] at hlength
      exact absurd hlength.symm (Nat.ne_of_gt hlimit)
    · rw [List.getLast?_eq_getElem?, hlength, List.getElem?_take_of_lt (by omega)]
  · exact Or.inl rfl

end

/-! ### The pause and the cursor -/

section

variable {inbox : Inbox} {call : Call χ} {s s' : InboxState χ π}

/-- Neither the pause nor the cursor has moved. -/
def SamePause (s s' : InboxState χ π) : Prop :=
  s'.fenceBlocked = s.fenceBlocked ∧ s'.fenceScan = s.fenceScan

theorem SamePause.trans {t : InboxState χ π} (h : SamePause s t) (h' : SamePause t s') :
    SamePause s s' :=
  ⟨h'.1.trans h.1, h'.2.trans h.2⟩

theorem SamePause.blocked (h : SamePause s s') :
    fenceHistoryBlocked inbox s' = fenceHistoryBlocked inbox s := by
  rw [fenceHistoryBlocked, fenceHistoryBlocked, h.1]

theorem SamePause.cursor (h : SamePause s s') : fenceCursor inbox s' = fenceCursor inbox s := by
  rw [fenceCursor, fenceCursor, h.2]

theorem deny_samePause {lineage : String} (h : deny call s lineage = some s') : SamePause s s' := by
  unfold deny at h
  split at h
  · cases h
  · cases h
    exact ⟨rfl, rfl⟩

theorem accept_samePause {scope : String} {events : List (Offer π)}
    {checkpoint : Except InboxError Bytes} {verify : χ × π → Except InboxError (Bool × χ × π)}
    {count : Nat} (hok : accept inbox call s scope events checkpoint verify = .ok (s', count)) :
    SamePause s s' := by
  simp only [accept, bind_eq_ok, pure_eq_ok, Prod.mk.injEq] at hok
  obtain ⟨-, -, fences, -, -, -, loop, hloop, -, -, ⟨verified, coverage, producer⟩, -, -, -, encoded,
    -, -, -, -, -, coverage', -, -, -, rfl, -⟩ := hok
  have hstate : SamePause s loop.state := by
    refine foldlM_invariant (fun l : Accepting χ π => SamePause s l.state)
      (fun l offer l' _ hl hl' => hl.trans ?_) ⟨rfl, rfl⟩ hloop
    cases offer with
    | malformed => cases hl'
    | raises error => cases hl'
    | writes f =>
      cases hl'
      exact ⟨rfl, rfl⟩
    | event event =>
      simp only [acceptOffer, acceptEvent, bind_eq_ok] at hl'
      obtain ⟨_, -, -, -, hl'⟩ := hl'
      split at hl'
      · simp only [bind_eq_ok, pure_eq_ok] at hl'
        obtain ⟨-, -, rfl⟩ := hl'
        exact ⟨rfl, rfl⟩
      · simp only [bind_eq_ok, pure_eq_ok] at hl'
        obtain ⟨-, -, rfl⟩ := hl'
        exact ⟨rfl, rfl⟩
  exact hstate.trans ⟨rfl, rfl⟩

theorem nextPage_samePause {result : PageResult} (hok : nextPage inbox call s = .ok (s', result)) :
    SamePause s s' := by
  unfold nextPage at hok
  split at hok
  · simp only [bind_eq_ok, pure_eq_ok, Prod.mk.injEq] at hok
    obtain ⟨-, -, rfl, -⟩ := hok
    exact ⟨rfl, rfl⟩
  · simp only [bind_eq_ok] at hok
    obtain ⟨events, -, hok⟩ := hok
    split at hok
    · cases pure_eq_ok.mp hok
      exact ⟨rfl, rfl⟩
    · simp only [bind_eq_ok, pure_eq_ok, Prod.mk.injEq] at hok
      obtain ⟨-, -, -, -, rfl, -⟩ := hok
      exact ⟨rfl, rfl⟩

/-- What a receipt leaves behind: no pause has moved, and what it calls forgotten is denied. -/
structure Acknowledging (s : InboxState χ π) (done : List ReceiptItem) (t : InboxState χ π) : Prop where
  pause : SamePause s t
  denials : ∀ l ∈ s.denials, l ∈ t.denials
  forgotten : ∀ item ∈ done, item.outcome = .forgotten → ∀ l ∈ item.lineageId, l ∈ t.denials

theorem applyOutcome_acknowledging {done : List ReceiptItem} {t t' : InboxState χ π} {item : ReceiptItem}
    (h : Acknowledging s done t) (hok : applyOutcome call t item = .ok t') :
    Acknowledging s (done ++ [item]) t' := by
  unfold applyOutcome at hok
  split at hok
  · cases hok
  · next event hevent =>
    have hmem : event ∈ t.events := List.mem_of_find?_eq_some hevent
    simp only [bind_eq_ok, check_eq_ok] at hok
    obtain ⟨-, hlineage, hok⟩ := hok
    split at hok
    · obtain ⟨u, hu⟩ := deny_isSome call hmem
      rw [hu, Option.getD_some] at hok
      cases pure_eq_ok.mp hok
      have hd := deny_eq_some hu
      refine ⟨h.pause.trans (deny_samePause hu),
        fun l hl => (hd.denials l).mpr (Or.inl (h.denials l hl)), fun i hi hforgotten l hl => ?_⟩
      rcases List.mem_append.mp hi with hi | hi
      · exact (hd.denials l).mpr (Or.inl (h.forgotten i hi hforgotten l hl))
      · rw [List.mem_singleton] at hi
        subst hi
        rw [hlineage, Option.mem_some_iff] at hl
        exact (hd.denials l).mpr (Or.inr hl.symm)
    · next hstored =>
      cases pure_eq_ok.mp hok
      refine ⟨h.pause.trans ⟨rfl, rfl⟩, h.denials, fun i hi hforgotten l hl => ?_⟩
      rcases List.mem_append.mp hi with hi | hi
      · exact h.forgotten i hi hforgotten l hl
      · rw [List.mem_singleton] at hi
        subst hi
        exact absurd hforgotten hstored

theorem acknowledge_forgotten {receipt : Receipt} (hok : acknowledge inbox call s receipt = .ok s') :
    SamePause s s' ∧ ∀ l ∈ receipt.forgotten, l ∈ s'.denials := by
  unfold acknowledge at hok
  simp only [bind_eq_ok] at hok
  obtain ⟨-, -, hok⟩ := hok
  split at hok
  · cases hok
  · simp only [bind_eq_ok, check_eq_ok, pure_eq_ok] at hok
    obtain ⟨-, -, -, -, previous, -, -, -, t, ht, coverage, -, rfl⟩ := hok
    have hdone : Acknowledging s receipt.items t :=
      foldlM_prefix_invariant (Acknowledging s) receipt.items
        (fun done u item u' _ hu hu' => applyOutcome_acknowledging hu hu')
        ⟨⟨rfl, rfl⟩, fun _ hl => hl, by simp⟩ ht
    refine ⟨hdone.pause.trans ⟨rfl, rfl⟩, fun l hl => ?_⟩
    rw [Receipt.forgotten, List.mem_filterMap] at hl
    obtain ⟨item, hitem, hl⟩ := hl
    rw [List.mem_filter, decide_eq_true_eq] at hitem
    exact hdone.forgotten item hitem.1 hitem.2 l hl

/-! ### A page of fences -/

/-- The loop of `apply_fences`. -/
def sweepItems (call : Call χ) (s : InboxState χ π) (items : List String) (retained : Bool) :
    InboxState χ π × Bool :=
  items.foldl (fun (s, retained) lineage =>
    match deny call s lineage with
    | some s => (s, retained)
    | none => (s, false)) (s, retained)

theorem sweepItems_cons (call : Call χ) (s : InboxState χ π) (lineage : String) (items : List String)
    (retained : Bool) : sweepItems call s (lineage :: items) retained =
      match deny call s lineage with
      | some t => sweepItems call t items retained
      | none => sweepItems call s items false := by
  simp only [sweepItems, List.foldl_cons]
  cases deny call s lineage <;> rfl

theorem sweepItems_pause (call : Call χ) (s : InboxState χ π) (items : List String) (retained : Bool) :
    SamePause s (sweepItems call s items retained).1 := by
  induction items generalizing s retained with
  | nil => exact ⟨rfl, rfl⟩
  | cons lineage items ih =>
    rw [sweepItems_cons]
    cases hdeny : deny call s lineage with
    | none => exact ih s false
    | some t => exact (deny_samePause hdeny).trans (ih t retained)

theorem sweepItems_denials (call : Call χ) (s : InboxState χ π) (items : List String) (retained : Bool) :
    ∀ l ∈ s.denials, l ∈ (sweepItems call s items retained).1.denials := by
  induction items generalizing s retained with
  | nil => exact fun _ hl => hl
  | cons lineage items ih =>
    rw [sweepItems_cons]
    cases hdeny : deny call s lineage with
    | none => exact ih s false
    | some t => exact fun l hl => ih t retained l (((deny_eq_some hdeny).denials l).mpr (Or.inl hl))

/-- A page that is retained has retained all its fences. -/
theorem sweepItems_retained (call : Call χ) (s : InboxState χ π) (items : List String) (retained : Bool)
    (h : (sweepItems call s items retained).2 = true) :
    retained = true ∧ ∀ l ∈ items, l ∈ (sweepItems call s items retained).1.denials := by
  induction items generalizing s retained with
  | nil => exact ⟨h, fun _ hl => nomatch hl⟩
  | cons lineage items ih =>
    rw [sweepItems_cons] at h ⊢
    cases hdeny : deny call s lineage with
    | none =>
      rw [hdeny] at h
      exact absurd (ih s false h).1 Bool.false_ne_true
    | some t =>
      rw [hdeny] at h
      obtain ⟨hretained, hitems⟩ := ih t retained h
      refine ⟨hretained, fun l hl => ?_⟩
      rcases List.mem_cons.mp hl with rfl | hl
      · exact sweepItems_denials call t items retained _
          (((deny_eq_some hdeny).denials _).mpr (Or.inr rfl))
      · exact hitems l hl

end

/-! ### Saving the pause and the cursor -/

section

variable {inbox : Inbox} {call : Call χ} {s s' : InboxState χ π}

theorem openValue_sealValue (hinbox : inbox.Faithful) (value : Bytes) (identity : String) :
    openValue inbox (some (sealValue inbox call value identity)) identity = .ok value := by
  rw [openValue, Option.bind_some, sealValue, hinbox.decrypt_encrypt]

theorem blocked_blockFences (hinbox : inbox.Faithful) (blocked : Bool) :
    fenceHistoryBlocked inbox (blockFences inbox call s blocked) = .ok blocked := by
  simp only [fenceHistoryBlocked, blockFences]
  rw [openValue_sealValue hinbox]
  cases blocked with
  | false => decide +revert
  | true => rfl

theorem cursor_saved (hinbox : inbox.Faithful) {nextCursor : Option String}
    (hlineage : ∀ c ∈ nextCursor, lineageText c = true) :
    fenceCursor inbox { s with
      fenceScan := some (sealValue inbox call (cursorJson nextCursor) "fence_scan") } =
        .ok (nextCursor.map utf8) := by
  simp only [fenceCursor]
  rw [openValue_sealValue hinbox]
  have hquote : utf8 "\"" = [34] := by decide
  cases nextCursor with
  | none => rfl
  | some cursor =>
    have hne : cursorJson (some cursor) ≠ utf8 "null" := by
      rw [cursorJson, hquote]
      exact fun h => absurd (List.cons.inj h).1 (by decide)
    show (.ok (if cursorJson (some cursor) = utf8 "null" then none
      else some ((cursorJson (some cursor)).drop 1).dropLast) : Except InboxError _) = _
    rw [if_neg hne, cursorJson, hquote]
    simp

/-! ### A page from the service -/

/-- What applying the service's answer does: a retained page moves the cursor, and the
    last one lifts the pause; another page sets the pause where it is. -/
structure Applied (inbox : Inbox) (s s' : InboxState χ π) (value : FencePage) (retained : Bool) : Prop where
  denials : ∀ l ∈ s.denials, l ∈ s'.denials
  kept : retained = true → (∀ l ∈ value.items, l ∈ s'.denials) ∧
    fenceCursor inbox s' = .ok (value.nextCursor.map utf8) ∧
    fenceHistoryBlocked inbox s' =
      if value.nextCursor = none then .ok false else fenceHistoryBlocked inbox s
  dropped : retained = false →
    fenceCursor inbox s' = fenceCursor inbox s ∧ fenceHistoryBlocked inbox s' = .ok true

theorem SweepState.answered_iff {w : SweepState χ π} {value : FencePage} :
    w.answered inbox value = true ↔ ∃ cursor, fenceCursor inbox w.inbox = .ok cursor ∧
      value = serverFences w.denied cursor FENCE_LIMIT := by
  rw [answered]
  cases fenceCursor inbox w.inbox <;> simp

/-- The service's answer is never refused. -/
theorem applyFences_answer (hinbox : inbox.Faithful) {denied : List String} {cursor : Option Bytes}
    (htexts : ∀ l ∈ denied, lineageText l = true) (hcursor : fenceCursor inbox s = .ok cursor)
    {blocked : Bool} (hblocked : fenceHistoryBlocked inbox s = .ok blocked) :
    ∃ s' retained, applyFences inbox call s (serverFences denied cursor FENCE_LIMIT) = .ok (s', retained) ∧
      Applied inbox s s' (serverFences denied cursor FENCE_LIMIT) retained := by
  generalize hvalue : serverFences denied cursor FENCE_LIMIT = value
  have hitems : ∀ l ∈ value.items, l ∈ denied ∧ ∀ c ∈ cursor, c < utf8 l := by
    intro l hl
    rw [← hvalue] at hl
    exact mem_serverFences hl
  have hshort : value.items.length ≤ 100 := by
    rw [← hvalue, serverFences_items]
    exact List.length_take_le _ _
  have hlineages : value.items.all lineageText = true :=
    List.all_eq_true.mpr fun l hl => htexts l (hitems l hl).1
  have hsorted : value.items.Pairwise (· < ·) := by
    rw [← hvalue, serverFences_items]
    exact behind_sorted.sublist (List.take_sublist _ _)
  have hnext : value.nextCursor = none ∨ (value.items ≠ [] ∧ value.nextCursor = value.items.getLast?) := by
    rw [← hvalue]
    exact serverFences_last (by decide)
  have hbehind : ∀ c ∈ cursor, ∀ first ∈ value.items.head?, c = [] ∨ c < utf8 first :=
    fun c hc first hfirst => Or.inr ((hitems first (List.mem_of_mem_head? hfirst)).2 c hc)
  have hlast : ∀ c ∈ value.nextCursor, lineageText c = true := by
    intro c hc
    rcases hnext with hnone | ⟨-, hlast⟩
    · rw [hnone] at hc
      cases hc
    · rw [hlast] at hc
      exact htexts c (hitems c (List.mem_of_getLast? hc)).1
  set swept := sweepItems call s value.items true with hswept
  have hdenials := sweepItems_denials call s value.items true
  have hpause := sweepItems_pause call s value.items true
  rw [← hswept] at hdenials hpause
  have happly : applyFences inbox call s value = .ok (
      if swept.2 then
        (if value.nextCursor = none then
            blockFences inbox call { swept.1 with
              fenceScan := some (sealValue inbox call (cursorJson value.nextCursor) "fence_scan") } false
          else { swept.1 with
            fenceScan := some (sealValue inbox call (cursorJson value.nextCursor) "fence_scan") }, true)
      else (blockFences inbox call swept.1 true, false)) := by
    simp only [applyFences, bind_eq_ok, check_eq_ok]
    refine ⟨blocked, hblocked, (), hshort, (), hlineages, (), hsorted, (), hnext, cursor, hcursor, (),
      hbehind, ?_⟩
    show (if swept.2 = true then _ else _) = _
    split <;> rfl
  cases hretained : swept.2 with
  | false =>
    rw [hretained] at happly
    refine ⟨_, _, happly, hdenials, nofun, fun _ => ⟨?_, blocked_blockFences hinbox true⟩⟩
    exact hpause.cursor
  | true =>
    have hkept := (sweepItems_retained call s value.items true (hswept ▸ hretained)).2
    rw [hretained] at happly
    refine ⟨_, _, happly, ?_, fun _ => ⟨?_, ?_, ?_⟩, nofun⟩
    · split
      · exact hdenials
      · exact hdenials
    · split
      · exact hkept
      · exact hkept
    · split
      · exact cursor_saved (s := swept.1) hinbox hlast
      · exact cursor_saved (s := swept.1) hinbox hlast
    · split
      · exact blocked_blockFences hinbox false
      · exact hpause.blocked

end

end Mnemion.Capture
