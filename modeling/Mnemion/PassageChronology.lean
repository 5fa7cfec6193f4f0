/-
  Mnemion/PassageChronology.lean
  ==============================
  **Stored chronology.**  The passages of a text lie one behind the other; the segments
  that `capture` stores cover them, read back without loss, and give every passage the
  time it was captured with.

  Along edits the time of an unchanged passage moves forward in one case only: under a
  date label that the previous revision already had.
-/
import Mnemion.PassageTime
import Mathlib.Data.List.Induction
import Mathlib.Data.List.Pairwise

namespace Mnemion.PassageTime

open PythonText JsonText

/-! ### Spans in order -/

/-- Nonempty spans, one behind the other, between two bounds. -/
structure Within (low high : Nat) (spans : List (Nat × Nat)) : Prop where
  ordered : spans.Pairwise fun a b => a.2 ≤ b.1
  bounds : ∀ span ∈ spans, low ≤ span.1 ∧ span.1 < span.2 ∧ span.2 ≤ high

theorem within_nil (low high : Nat) : Within low high [] :=
  ⟨List.Pairwise.nil, fun _ h => nomatch h⟩

theorem Within.append {low mid mid' high : Nat} {a b : List (Nat × Nat)} (ha : Within low mid a)
    (hb : Within mid' high b) (hlow : low ≤ mid') (hmid : mid ≤ mid') (hhigh : mid ≤ high) :
    Within low high (a ++ b) where
  ordered := by
    refine List.pairwise_append.mpr ⟨ha.ordered, hb.ordered, fun x hx y hy => ?_⟩
    have := ha.bounds x hx
    have := hb.bounds y hy
    omega
  bounds := by
    intro span hspan
    rcases List.mem_append.mp hspan with hspan | hspan
    · have := ha.bounds span hspan
      omega
    · have := hb.bounds span hspan
      omega

/-- Spans that shrink stay in order. -/
theorem Within.filterMap {low high : Nat} {spans : List (Nat × Nat)} (h : Within low high spans)
    {f : Nat × Nat → Option (Nat × Nat)}
    (hf : ∀ span, ∀ x ∈ f span, span.1 ≤ x.1 ∧ x.1 < x.2 ∧ x.2 ≤ span.2) :
    Within low high (spans.filterMap f) where
  ordered := by
    refine List.Pairwise.filterMap _ (fun a b hab x hx y hy => ?_) h.ordered
    have := hf a x hx
    have := hf b y hy
    omega
  bounds := by
    intro x hx
    obtain ⟨span, hspan, hx⟩ := List.mem_filterMap.mp hx
    have := h.bounds span hspan
    have := hf span x hx
    omega

theorem Within.shift {low high : Nat} {spans : List (Nat × Nat)} (h : Within low high spans)
    (offset : Nat) :
    Within (offset + low) (offset + high) (spans.map fun span => (offset + span.1, offset + span.2)) where
  ordered := by
    rw [List.pairwise_map]
    refine h.ordered.imp fun hab => ?_
    omega
  bounds := by
    intro x hx
    obtain ⟨span, hspan, rfl⟩ := List.mem_map.mp hx
    have := h.bounds span hspan
    omega

/-! ### The passages of a text -/

theorem splitlinesKeep_flatten (text : List Char) : (splitlinesKeep text).flatten = text := by
  induction text using splitlinesKeep.induct with
  | case1 => rfl
  | case2 rest ih =>
    rw [splitlinesKeep, List.flatten_cons, ih]
    rfl
  | case3 c rest hrest hbreak ih =>
    rw [splitlinesKeep, if_pos hbreak, List.flatten_cons, ih]
    · rfl
    · exact hrest
  | case4 c rest hrest hbreak hnil ih =>
    rw [splitlinesKeep, if_neg hbreak, hnil]
    · rw [hnil] at ih
      rw [← ih]
      rfl
    · exact hrest
  | case5 c rest hrest hbreak line lines hcons ih =>
    rw [splitlinesKeep, if_neg hbreak, hcons]
    · rw [hcons] at ih
      rw [← ih]
      rfl
    · exact hrest

theorem trimmed_spec {line : List Char} {start stop : Nat} {span : Nat × Nat}
    (h : trimmed line start stop = some span) :
    start ≤ span.1 ∧ span.1 < span.2 ∧ span.2 ≤ stop := by
  unfold trimmed at h
  generalize hpiece : (line.drop start).take (stop - start) = piece at h
  have hlength : piece.length ≤ stop - start := by
    rw [← hpiece]
    exact List.length_take_le _ _
  dsimp only at h
  split at h
  · rename_i hlead
    cases h
    -- the first other character ends both runs of spaces
    have hrest : piece.dropWhile pySpace ≠ [] := by
      intro hnil
      have hall := List.takeWhile_append_dropWhile (p := pySpace) (l := piece)
      rw [hnil, List.append_nil] at hall
      rw [hall] at hlead
      exact Nat.lt_irrefl _ hlead
    have htrail : (piece.takeWhile pySpace).length + (piece.reverse.takeWhile pySpace).length <
        piece.length := by
      obtain ⟨c, rest, hcons⟩ := List.exists_cons_of_ne_nil hrest
      have hc : pySpace c = false := by
        have := List.head_dropWhile_not pySpace hrest
        simpa [hcons] using this
      have hall := List.takeWhile_append_dropWhile (p := pySpace) (l := piece)
      rw [hcons] at hall
      generalize piece.takeWhile pySpace = lead at hall ⊢
      have hreverse : piece.reverse = rest.reverse ++ c :: lead.reverse := by
        rw [← hall]
        simp
      have hshort : (piece.reverse.takeWhile pySpace).length ≤ rest.length := by
        rw [hreverse]
        by_cases hspaces : ∀ x ∈ rest.reverse, pySpace x = true
        · rw [List.takeWhile_append_of_pos hspaces,
            List.takeWhile_cons_of_neg (by rw [hc]; decide), List.append_nil, List.length_reverse]
        · rw [List.takeWhile_append]
          split
          · rename_i heq
            refine absurd ?_ hspaces
            intro x hx
            rw [← List.takeWhile_eq_self_iff.mp (List.IsPrefix.eq_of_length
              (List.takeWhile_prefix _) heq) x hx]
          · have := (List.takeWhile_prefix (p := pySpace) (l := rest.reverse)).length_le
            rwa [List.length_reverse] at this
      have := congrArg List.length hall
      rw [List.length_append, List.length_cons] at this
      omega
    dsimp only
    omega
  · cases h

theorem chunks_within (start finish : Nat) : Within start finish (chunks start finish) where
  ordered := by
    rw [chunks, List.pairwise_map]
    refine (List.pairwise_lt_range).imp fun hab => ?_
    omega
  bounds := by
    intro span hspan
    obtain ⟨i, hi, rfl⟩ := List.mem_map.mp hspan
    rw [List.mem_range] at hi
    omega

theorem numberedMatch_pos {library : Library} {text : List Char} {length : Nat}
    (h : library.numberedMatch text = some length) : 0 < length := by
  unfold Library.numberedMatch at h
  split at h
  · dsimp only at h
    split at h
    · split at h
      · cases h
        omega
      · cases h
    · cases h
  · cases h

theorem numbered_spec (library : Library) (text : List Char) :
    ∀ (position : Nat) (behindSpace : Bool) (skip : Nat),
      (library.numbered position behindSpace skip text).Pairwise (· ≤ ·) ∧
        ∀ start ∈ library.numbered position behindSpace skip text,
          position ≤ start ∧ start < position + text.length := by
  induction text with
  | nil => exact fun _ _ _ => ⟨List.Pairwise.nil, fun _ h => nomatch h⟩
  | cons c rest ih =>
    intro position behindSpace skip
    have hlater : ∀ space skip, (library.numbered (position + 1) space skip rest).Pairwise (· ≤ ·) ∧
        ∀ start ∈ library.numbered (position + 1) space skip rest,
          position + 1 ≤ start ∧ start < position + (c :: rest).length := by
      intro space skip
      obtain ⟨hordered, hbounds⟩ := ih (position + 1) space skip
      refine ⟨hordered, fun start hstart => ?_⟩
      have := hbounds start hstart
      rw [List.length_cons]
      omega
    have hpass : ∀ space skip, (library.numbered (position + 1) space skip rest).Pairwise (· ≤ ·) ∧
        ∀ start ∈ library.numbered (position + 1) space skip rest,
          position ≤ start ∧ start < position + (c :: rest).length := by
      intro space skip
      obtain ⟨hordered, hbounds⟩ := hlater space skip
      exact ⟨hordered, fun start hstart => ⟨by have := hbounds start hstart; omega,
        (hbounds start hstart).2⟩⟩
    cases skip with
    | succ skip => exact hpass _ _
    | zero =>
      rw [Library.numbered]
      cases if behindSpace then library.numberedMatch (c :: rest) else none with
      | none => exact hpass _ _
      | some length =>
        obtain ⟨hordered, hbounds⟩ := hlater (pySpace c) (length - 1)
        refine ⟨List.pairwise_cons.mpr ⟨fun start hstart => ?_, hordered⟩, fun start hstart => ?_⟩
        · have := hbounds start hstart
          omega
        · rcases List.mem_cons.mp hstart with rfl | hstart
          · rw [List.length_cons]
            omega
          · have := hbounds start hstart
            omega

/-- Between increasing cuts the chunks lie in order. -/
theorem cut_within (cuts : List Nat) {low high : Nat} (hordered : cuts.Pairwise (· ≤ ·))
    (hbounds : ∀ cut ∈ cuts, low ≤ cut ∧ cut ≤ high) :
    Within low high ((cuts.zip cuts.tail).flatMap fun cut => chunks cut.1 cut.2) := by
  induction cuts generalizing low with
  | nil => exact within_nil _ _
  | cons a rest ih =>
    cases rest with
    | nil => exact within_nil _ _
    | cons b rest =>
      rw [List.pairwise_cons] at hordered
      have ha := hbounds a List.mem_cons_self
      have hb := hbounds b (List.mem_cons_of_mem _ List.mem_cons_self)
      have hab := hordered.1 b List.mem_cons_self
      have hrest := @ih b hordered.2 (by
        intro cut hcut
        refine ⟨?_, (hbounds cut (List.mem_cons_of_mem _ hcut)).2⟩
        rcases List.mem_cons.mp hcut with rfl | hcut
        · exact le_refl _
        · exact (List.pairwise_cons.mp hordered.2).1 cut hcut)
      have hfirst := (chunks_within a b).append hrest hab (le_refl _) hb.2
      exact ⟨hfirst.ordered, fun span hspan => by have := hfirst.bounds span hspan; omega⟩

/-- The chunks of a line, before the white space at their ends goes. -/
theorem line_chunks_within (library : Library) (insideCode : Bool) (line : List Char) :
    Within 0 line.length (((library.cuts insideCode line).zip
      (library.cuts insideCode line).tail).flatMap fun cut => chunks cut.1 cut.2) := by
  refine cut_within _ ?_ ?_
  · obtain ⟨hordered, hbounds⟩ := numbered_spec library line 0 true 0
    have hmiddle : (if insideCode then [] else (library.numbered 0 true 0 line).filter
        (· ≠ 0)).Pairwise (· ≤ ·) ∧ ∀ cut ∈ (if insideCode then [] else
          (library.numbered 0 true 0 line).filter (· ≠ 0)), cut ≤ line.length := by
      split
      · exact ⟨List.Pairwise.nil, fun _ h => nomatch h⟩
      · refine ⟨hordered.filter _, fun cut hcut => ?_⟩
        have := hbounds cut (List.mem_of_mem_filter hcut)
        omega
    rw [Library.cuts, List.append_assoc, List.singleton_append, List.pairwise_cons,
      List.pairwise_append]
    refine ⟨fun _ _ => Nat.zero_le _, hmiddle.1, List.pairwise_singleton _ _, fun cut hcut last hlast => ?_⟩
    rw [List.mem_singleton.mp hlast]
    exact hmiddle.2 cut hcut
  · intro cut hcut
    refine ⟨Nat.zero_le _, ?_⟩
    obtain ⟨-, hbounds⟩ := numbered_spec library line 0 true 0
    rw [Library.cuts, List.append_assoc, List.singleton_append, List.mem_cons, List.mem_append,
      List.mem_singleton] at hcut
    rcases hcut with rfl | hcut | rfl
    · exact Nat.zero_le _
    · split at hcut
      · cases hcut
      · have := hbounds cut (List.mem_of_mem_filter hcut)
        omega
    · exact le_refl _

theorem pieces_within (library : Library) (insideCode : Bool) (line : List Char) :
    Within 0 line.length (library.pieces insideCode line) :=
  (line_chunks_within library insideCode line).filterMap fun _ _ hx => trimmed_spec hx

def Passage.span (part : Passage) : Nat × Nat := (part.start, part.stop)

theorem parts_within (library : Library) (ceiling : Datetime) (lines : List (List Char)) :
    ∀ (offset : Nat) (state : Section), Within offset (offset + lines.flatten.length)
      ((library.parts ceiling offset state lines).map Passage.span) := by
  induction lines with
  | nil => exact fun _ _ => within_nil _ _
  | cons line lines ih =>
    intro offset state
    rw [Library.parts, List.map_append, List.map_map, List.flatten_cons, List.length_append]
    have hline := (pieces_within library (library.line ceiling state line).2.1 line).shift offset
    have hrest := ih (offset + line.length) (library.line ceiling state line).1
    rw [Nat.add_zero] at hline
    rw [Nat.add_assoc] at hrest
    exact hline.append hrest (by omega) (le_refl _) (by omega)

/-- **The passages of a text lie one behind the other within it.** -/
theorem passages_within (library : Library) {text : List Char} (htext : text ≠ [])
    (ceiling : Datetime) :
    Within 0 text.length ((library.passages text ceiling).map Passage.span) ∧
      (library.passages text ceiling).length ≤ MAX_SEGMENTS := by
  have hwhole : Within 0 text.length ([(⟨0, text.length, none, .recordedAt⟩ : Passage)].map
      Passage.span) := by
    refine ⟨List.pairwise_singleton _ _, fun span hspan => ?_⟩
    rw [List.map_singleton, List.mem_singleton] at hspan
    rw [hspan]
    exact ⟨le_refl _, List.length_pos_iff.mpr htext, le_refl _⟩
  unfold Library.passages
  dsimp only
  split
  · exact ⟨hwhole, by rw [List.length_singleton]; decide⟩
  · rename_i hfew
    split
    · exact ⟨hwhole, by rw [List.length_singleton]; decide⟩
    · refine ⟨?_, not_lt.mp hfew⟩
      have hparts := parts_within library ceiling (splitlinesKeep text) 0 .start
      rwa [splitlinesKeep_flatten, Nat.zero_add] at hparts

/-! ### Dates that are not later than the revision -/

theorem leadingDate_le {library : Library} {line : List Char} {ceiling date : Datetime} {basis : Basis}
    (h : library.leadingDate line ceiling = some (date, basis)) : date.instant ≤ ceiling.instant := by
  simp only [Library.leadingDate, Option.bind_eq_bind, Option.bind_eq_some_iff] at h
  obtain ⟨⟨day, clock, zone⟩, -, parsed, -, hresult⟩ := h
  split at hresult
  · cases hresult
  · rename_i hle
    cases hresult
    exact not_lt.mp hle

theorem parts_declared (library : Library) (ceiling : Datetime) (lines : List (List Char)) :
    ∀ {offset : Nat} {state : Section}, (∀ date, state.date = some date → date.instant ≤ ceiling.instant) →
      ∀ part ∈ library.parts ceiling offset state lines, ∀ date, part.declaredAt = some date →
        date.instant ≤ ceiling.instant := by
  induction lines with
  | nil => exact fun _ _ h => nomatch h
  | cons line lines ih =>
    intro offset state hstate part hpart date hdate
    have hline : (∀ date, (library.line ceiling state line).1.date = some date →
        date.instant ≤ ceiling.instant) ∧ ∀ date, (library.line ceiling state line).2.2.1 = some date →
          date.instant ≤ ceiling.instant := by
      unfold Library.line
      dsimp only
      generalize hdated : (if (state.fence.isSome || (fenceMarker (strip line)).isSome) = true then none
        else library.leadingDate line ceiling) = dated
      have hle : ∀ found, dated = some found → found.1.instant ≤ ceiling.instant := by
        intro found hfound
        rw [hfound] at hdated
        split at hdated
        · cases hdated
        · exact leadingDate_le hdated
      generalize (if (state.fence.isSome || (fenceMarker (strip line)).isSome) = true then none
        else headingLevel (strip line)) = heading
      cases dated with
      | none =>
        cases heading with
        | none => exact ⟨hstate, hstate⟩
        | some level =>
          dsimp only
          split
          · exact ⟨(fun _ h => nomatch h), fun _ h => nomatch h⟩
          · exact ⟨hstate, hstate⟩
      | some found =>
        obtain ⟨found, basis⟩ := found
        have hfound : ∀ date, some found = some date → date.instant ≤ ceiling.instant := by
          intro date h
          cases h
          exact hle _ rfl
        cases heading with
        | none => exact ⟨hstate, hfound⟩
        | some level => exact ⟨hfound, hfound⟩
    rw [Library.parts] at hpart
    rcases List.mem_append.mp hpart with hpart | hpart
    · obtain ⟨piece, -, rfl⟩ := List.mem_map.mp hpart
      exact hline.2 date hdate
    · exact ih hline.1 part hpart date hdate

theorem passages_declared {library : Library} {text : List Char} {ceiling : Datetime} {part : Passage}
    (hpart : part ∈ library.passages text ceiling) {date : Datetime}
    (hdate : part.declaredAt = some date) : date.instant ≤ ceiling.instant := by
  unfold Library.passages at hpart
  dsimp only at hpart
  split at hpart
  · rw [List.mem_singleton.mp hpart] at hdate
    cases hdate
  · split at hpart
    · rw [List.mem_singleton.mp hpart] at hdate
      cases hdate
    · exact @parts_declared library ceiling _ 0 .start (fun _ h => nomatch h) part hpart date hdate

theorem sourceTime_le (library : Library) (metadata : Metadata) (recordedAt : Datetime) :
    (library.sourceTime metadata recordedAt).1.instant ≤ recordedAt.instant := by
  unfold Library.sourceTime
  split
  · split
    · rename_i hle
      exact hle
    · exact le_refl _
  · exact le_refl _

/-! ### Stored dates read back -/

theorem characters_codes (text : List Char) : characters (codes text) = some text := by
  have htext : (codes text).map Char.ofNat = text := by
    rw [codes, List.map_map]
    conv_rhs => rw [← List.map_id text]
    exact List.map_congr_left fun c _ => Char.ofNat_toNat c
  rw [characters, htext]
  exact if_pos rfl

/-- **The text of a date reads back as its instant.** -/
theorem timestamp_isoformat (library : Library) (date : Datetime) :
    ∃ read, library.timestamp (.str (codes date.isoformat)) = some read ∧
      read.instant = date.instant := by
  obtain ⟨hpos, hmax⟩ := date.clockValid
  have hread : library.parse (codes date.isoformat) = some ((date.clock : Int), date.offset) := by
    rw [Library.parse, characters_codes, Option.bind_some, Datetime.isoformat,
      readIso_isoformatAt hpos hmax date.offsetValid]
  have hshort : ¬ 64 < (codes date.isoformat).length := by
    rw [codes, List.length_map]
    have := length_isoformatAt_le hpos hmax date.offsetValid
    rw [Datetime.isoformat]
    omega
  have hinstant : (date.clock : Int) - date.offset * 1000000 = date.instant := by
    rw [date.ahead]
    omega
  rw [Library.timestamp, if_neg hshort, hread, Option.bind_some, hinstant, utc,
    dif_pos ⟨Int.natCast_nonneg _, by rw [Int.toNat_natCast]; exact date.instantValid⟩]
  exact ⟨_, rfl, Int.toNat_natCast _⟩

/-! ### Merged segments -/

/-- What a passage is stored as. -/
structure Covers (segment : Segment) (timed : Timed) : Prop where
  start : segment.start ≤ timed.part.start
  stop : timed.part.stop ≤ segment.stop
  date : segment.date = timed.date.isoformat
  basis : segment.basis = timed.basis

def Segment.span (segment : Segment) : Nat × Nat := (segment.start, segment.stop)

/-- The segments written for some passages. -/
structure Written (high : Nat) (timeds : List Timed) (output : List Segment) : Prop where
  within : Within 0 high (output.map Segment.span)
  covers : ∀ timed ∈ timeds, ∃ segment ∈ output, Covers segment timed
  covered : ∀ segment ∈ output, ∃ timed ∈ timeds, segment.date = timed.date.isoformat ∧
    segment.stop = timed.part.stop
  length : output.length ≤ timeds.length

theorem Written.add {high : Nat} {timeds : List Timed} {output : List Segment}
    (h : Written high timeds output) {timed : Timed} (hspan : timed.part.start < timed.part.stop)
    (hhigh : timed.part.stop ≤ high) (hbehind : ∀ other ∈ timeds, other.part.stop ≤ timed.part.start) :
    Written high (timeds ++ [timed]) (addSegment output timed) := by
  let row : Segment := ⟨timed.part.start, timed.part.stop, timed.date.isoformat, timed.basis⟩
  have hends : ∀ segment ∈ output, segment.stop ≤ timed.part.start := by
    intro segment hsegment
    obtain ⟨other, hother, -, hstop⟩ := h.covered segment hsegment
    rw [hstop]
    exact hbehind other hother
  have hcoversRow : Covers row timed := ⟨le_refl _, le_refl _, rfl, rfl⟩
  -- a segment of its own
  have happend : Written high (timeds ++ [timed]) (output ++ [row]) := by
    refine ⟨?_, ?_, ?_, ?_⟩
    · rw [List.map_append, List.map_singleton]
      refine ⟨List.pairwise_append.mpr ⟨h.within.ordered, List.pairwise_singleton _ _, ?_⟩, ?_⟩
      · intro span hspan' last hlast
        obtain ⟨segment, hsegment, rfl⟩ := List.mem_map.mp hspan'
        rw [List.mem_singleton.mp hlast]
        exact hends segment hsegment
      · intro span hspan'
        rcases List.mem_append.mp hspan' with hspan' | hspan'
        · exact h.within.bounds span hspan'
        · rw [List.mem_singleton.mp hspan']
          exact ⟨Nat.zero_le _, hspan, hhigh⟩
    · intro other hother
      rcases List.mem_append.mp hother with hother | hother
      · obtain ⟨segment, hsegment, hcovers⟩ := h.covers other hother
        exact ⟨segment, List.mem_append_left _ hsegment, hcovers⟩
      · rw [List.mem_singleton.mp hother]
        exact ⟨row, List.mem_append_right _ (List.mem_singleton.mpr rfl), hcoversRow⟩
    · intro segment hsegment
      rcases List.mem_append.mp hsegment with hsegment | hsegment
      · obtain ⟨other, hother, hsame⟩ := h.covered segment hsegment
        exact ⟨other, List.mem_append_left _ hother, hsame⟩
      · rw [List.mem_singleton.mp hsegment]
        exact ⟨timed, List.mem_append_right _ (List.mem_singleton.mpr rfl), rfl, rfl⟩
    · rw [List.length_append, List.length_append]
      exact Nat.add_le_add_right h.length 1
  unfold addSegment
  dsimp only
  cases hlast : output.getLast? with
  | none => exact happend
  | some last =>
    dsimp only
    split
    · -- the last segment grows
      rename_i hsame
      obtain ⟨before, rfl⟩ : ∃ before, output = before ++ [last] :=
        List.getLast?_eq_some_iff.mp hlast
      rw [List.dropLast_concat]
      have hlastEnds := hends last (List.mem_append_right _ (List.mem_singleton.mpr rfl))
      have hlastSpan := h.within.bounds last.span (by simp)
      have hordered := h.within.ordered
      rw [List.map_append, List.map_singleton, List.pairwise_append] at hordered
      refine ⟨?_, ?_, ?_, ?_⟩
      · rw [List.map_append, List.map_singleton]
        refine ⟨List.pairwise_append.mpr ⟨hordered.1, List.pairwise_singleton _ _, ?_⟩, ?_⟩
        · intro span hspan' other hother
          rw [List.mem_singleton.mp hother]
          exact hordered.2.2 span hspan' last.span (List.mem_singleton.mpr rfl)
        · intro span hspan'
          rcases List.mem_append.mp hspan' with hspan' | hspan'
          · refine h.within.bounds span ?_
            rw [List.map_append]
            exact List.mem_append_left _ hspan'
          · rw [List.mem_singleton.mp hspan']
            refine ⟨Nat.zero_le _, ?_, hhigh⟩
            simp only [Segment.span] at hlastSpan ⊢
            omega
      · intro other hother
        rcases List.mem_append.mp hother with hother | hother
        · obtain ⟨segment, hsegment, hcovers⟩ := h.covers other hother
          rcases List.mem_append.mp hsegment with hsegment | hsegment
          · exact ⟨segment, List.mem_append_left _ hsegment, hcovers⟩
          · rw [List.mem_singleton.mp hsegment] at hcovers
            refine ⟨_, List.mem_append_right _ (List.mem_singleton.mpr rfl), hcovers.start, ?_,
              hcovers.date, hcovers.basis⟩
            have := hbehind other hother
            dsimp only
            omega
        · rw [List.mem_singleton.mp hother]
          refine ⟨_, List.mem_append_right _ (List.mem_singleton.mpr rfl), ?_, le_refl _, hsame.1,
            hsame.2⟩
          simp only [Segment.span] at hlastSpan
          dsimp only
          omega
      · intro segment hsegment
        rcases List.mem_append.mp hsegment with hsegment | hsegment
        · obtain ⟨other, hother, hsame⟩ := h.covered segment (List.mem_append_left _ hsegment)
          exact ⟨other, List.mem_append_left _ hother, hsame⟩
        · rw [List.mem_singleton.mp hsegment]
          exact ⟨timed, List.mem_append_right _ (List.mem_singleton.mpr rfl), hsame.1, rfl⟩
      · have := h.length
        rw [List.length_append, List.length_singleton] at this ⊢
        rw [List.length_append, List.length_singleton]
        omega
    · exact happend

/-- **The segments cover the passages**, each with its own date and basis. -/
theorem written (high : Nat) (timeds : List Timed)
    (hwithin : Within 0 high (timeds.map fun timed => timed.part.span)) :
    Written high timeds (timeds.foldl addSegment []) := by
  induction timeds using List.reverseRecOn with
  | nil => exact ⟨within_nil _ _, (fun _ h => nomatch h), (fun _ h => nomatch h), le_refl _⟩
  | append_singleton timeds timed ih =>
    rw [List.map_append, List.map_singleton] at hwithin
    have hordered := List.pairwise_append.mp hwithin.ordered
    have hlast := hwithin.bounds timed.part.span (by simp)
    rw [List.foldl_append, List.foldl_cons, List.foldl_nil]
    refine (ih ⟨hordered.1, fun span hspan => hwithin.bounds span
      (List.mem_append_left _ hspan)⟩).add hlast.2.1 hlast.2.2 ?_
    intro other hother
    exact hordered.2.2 other.part.span (List.mem_map_of_mem hother) _ (List.mem_singleton.mpr rfl)

/-! ### Reading the segments -/

/-- A row as it was written. -/
structure Reads (segment : Segment) (row : Row) : Prop where
  start : row.start = segment.start
  stop : row.stop = segment.stop
  basis : row.basis = segment.basis
  date : ∃ date : Datetime, segment.date = date.isoformat ∧ row.date.instant = date.instant

theorem row_json {library : Library} {length previous : Nat} {segment : Segment} {date : Datetime}
    (hdate : segment.date = date.isoformat) (hprevious : previous ≤ segment.start)
    (hspan : segment.start < segment.stop) (hlength : segment.stop ≤ length) :
    ∃ row, library.row length previous segment.json = some row ∧ Reads segment row := by
  obtain ⟨read, hread, hinstant⟩ := timestamp_isoformat library date
  have hbasis : (Basis.all.find? fun known =>
      decide (codes segment.basis.text = codes known.text)) = some segment.basis := by
    cases segment.basis <;> decide
  rw [Segment.json, hdate, Library.row]
  simp only [hbasis, hread, Option.bind_eq_bind, Option.bind_some]
  rw [if_pos ⟨by omega, by omega, by omega⟩]
  exact ⟨_, rfl, Int.toNat_natCast _, Int.toNat_natCast _, rfl, date, hdate, hinstant⟩

theorem rows_json (library : Library) (length : Nat) (output : List Segment) :
    ∀ {previous : Nat}, Within previous length (output.map Segment.span) →
      (∀ segment ∈ output, ∃ date : Datetime, segment.date = date.isoformat) →
      ∃ rows, library.rows length previous (output.map Segment.json) = some rows ∧
        List.Forall₂ Reads output rows := by
  induction output with
  | nil => exact fun _ _ => ⟨[], rfl, .nil⟩
  | cons segment output ih =>
    intro previous hwithin hdates
    rw [List.map_cons] at hwithin
    obtain ⟨date, hdate⟩ := hdates segment List.mem_cons_self
    obtain ⟨hlow, hspan, hhigh⟩ := hwithin.bounds segment.span List.mem_cons_self
    obtain ⟨row, hrow, hreads⟩ := @row_json library length previous segment date hdate hlow hspan hhigh
    have hordered := List.pairwise_cons.mp hwithin.ordered
    obtain ⟨rows, hrows, hall⟩ := @ih row.stop ⟨hordered.2, fun span hspan => by
      have := hwithin.bounds span (List.mem_cons_of_mem _ hspan)
      have := hordered.1 span hspan
      rw [hreads.stop]
      exact ⟨this, by omega, by omega⟩⟩ fun other hother => hdates other (List.mem_cons_of_mem _ hother)
    refine ⟨row :: rows, ?_, .cons hreads hall⟩
    rw [List.map_cons, Library.rows]
    simp only [hrow, hrows, Option.bind_eq_bind, Option.bind_some]
    rfl

/-- A row around a passage, with its time. -/
structure Dates (recordedAt : Datetime) (row : Row) (timed : Timed) : Prop where
  start : row.start ≤ timed.part.start
  stop : timed.part.stop ≤ row.stop
  date : row.date.instant = timed.date.instant
  basis : row.basis = timed.basis
  recorded : timed.date.instant ≤ recordedAt.instant

def Row.span (row : Row) : Nat × Nat := (row.start, row.stop)

/-- What is compared of a passage and its time. -/
def Timed.key (timed : Timed) : Passage × Instant × Basis := (timed.part, timed.date.instant, timed.basis)

theorem latest_mem {rows : List Row} (h : rows ≠ []) : ∃ row ∈ rows, latest rows = some row := by
  cases rows with
  | nil => exact absurd rfl h
  | cons row rows =>
    have hfold : ∀ (others : List Row) (best : Row), best ∈ row :: rows → others ⊆ row :: rows →
        others.foldl (fun best row => if row.le best then best else row) best ∈ row :: rows := by
      intro others
      induction others with
      | nil => exact fun best hbest _ => hbest
      | cons other others ih =>
        intro best hbest hothers
        rw [List.foldl_cons]
        refine ih _ ?_ (List.subset_of_cons_subset hothers)
        split
        · exact hbest
        · exact hothers List.mem_cons_self
    exact ⟨_, hfold rows row List.mem_cons_self (List.subset_cons_self _ _), rfl⟩

/-- Rows in order: those that start before a bound come first. -/
theorem mem_takeWhile_start {rows : List Row} (hordered : rows.Pairwise fun a b => a.stop ≤ b.start)
    (hspans : ∀ row ∈ rows, row.start < row.stop) {row : Row} (hrow : row ∈ rows) {bound : Nat}
    (hbound : row.start < bound) : row ∈ rows.takeWhile fun row => row.start < bound := by
  induction rows with
  | nil => cases hrow
  | cons first rows ih =>
    rw [List.pairwise_cons] at hordered
    have hfirst : first.start < bound := by
      rcases List.mem_cons.mp hrow with rfl | hrow
      · exact hbound
      · have := hordered.1 row hrow
        have := hspans first List.mem_cons_self
        omega
    rw [List.takeWhile_cons, if_pos (decide_eq_true hfirst)]
    rcases List.mem_cons.mp hrow with rfl | hrow
    · exact List.mem_cons_self
    · exact List.mem_cons_of_mem _
        (ih hordered.2 (fun row h => hspans row (List.mem_cons_of_mem _ h)) hrow)

/-- Two rows in order that both contain a passage are one. -/
theorem row_unique {rows : List Row} (hordered : rows.Pairwise fun a b => a.stop ≤ b.start)
    {a b : Row} (ha : a ∈ rows) (hb : b ∈ rows) {part : Passage} (hspan : part.start < part.stop)
    (hain : a.start ≤ part.start ∧ part.stop ≤ a.stop)
    (hbin : b.start ≤ part.start ∧ part.stop ≤ b.stop) : a = b := by
  by_contra hne
  have hapart : rows.Pairwise fun a b => a.stop ≤ b.start ∨ b.stop ≤ a.start :=
    hordered.imp fun h => Or.inl h
  have : Std.Symm fun a b : Row => a.stop ≤ b.start ∨ b.stop ≤ a.start := ⟨fun _ _ h => h.symm⟩
  have := hapart.forall ha hb hne
  omega

/-- **Every passage is read with the time of the row around it.** -/
theorem timesFrom_eq {recordedAt : Datetime} {fallback : Datetime × Basis} (timeds : List Timed) :
    ∀ {rows : List Row}, rows.Pairwise (fun a b => a.stop ≤ b.start) →
      (∀ row ∈ rows, row.start < row.stop) →
      (∀ timed ∈ timeds, timed.part.start < timed.part.stop) →
      timeds.Pairwise (fun a b => a.part.stop ≤ b.part.start) →
      (∀ timed ∈ timeds, ∃ row ∈ rows, Dates recordedAt row timed) →
      (timesFrom recordedAt fallback rows (timeds.map (·.part))).map Timed.key =
        timeds.map Timed.key := by
  induction timeds with
  | nil => exact fun _ _ _ _ _ => rfl
  | cons timed timeds ih =>
    intro rows hordered hspans hparts hbehind hdates
    rw [List.pairwise_cons] at hbehind
    have hspan := hparts timed List.mem_cons_self
    -- the cursor only passes rows that end before the passage
    have hkeeps : ∀ {row : Row}, row ∈ rows → timed.part.start < row.stop →
        row ∈ rows.dropWhile fun row => row.stop ≤ timed.part.start := by
      intro row hrow hends
      rw [← List.takeWhile_append_dropWhile (p := fun row : Row => decide (row.stop ≤ timed.part.start))
        (l := rows)] at hrow
      rcases List.mem_append.mp hrow with hrow | hrow
      · have := of_decide_eq_true
          (@List.mem_takeWhile_imp _ (fun row : Row => decide (row.stop ≤ timed.part.start)) _ _ hrow)
        omega
      · exact hrow
    have hsub : (rows.dropWhile fun row => row.stop ≤ timed.part.start).Sublist rows :=
      (List.dropWhile_suffix _).sublist
    have hordered' := hordered.sublist hsub
    rw [List.map_cons, timesFrom, List.map_cons, List.map_cons]
    generalize (rows.dropWhile fun row => row.stop ≤ timed.part.start) = kept at *
    congr 1
    · obtain ⟨row, hrow, hrowdates⟩ := hdates timed List.mem_cons_self
      have hkept : row ∈ kept := hkeeps hrow (by have := hrowdates.stop; omega)
      have hfound : row ∈ (kept.takeWhile fun row => row.start < timed.part.stop).filter fun row =>
          row.start ≤ timed.part.start && timed.part.stop ≤ row.stop &&
            row.date.instant ≤ recordedAt.instant := by
        rw [List.mem_filter]
        refine ⟨mem_takeWhile_start hordered' (fun row h => hspans row (hsub.subset h)) hkept
          (by have := hrowdates.start; omega), ?_⟩
        simp [hrowdates.start, hrowdates.stop, hrowdates.date, hrowdates.recorded]
      obtain ⟨best, hbest, hlatest⟩ := latest_mem (List.ne_nil_of_mem hfound)
      have hbestRow : best = row := by
        rw [List.mem_filter] at hbest
        obtain ⟨hbestKept, hcontains⟩ := hbest
        simp only [Bool.and_eq_true, decide_eq_true_eq] at hcontains
        exact row_unique hordered' ((List.takeWhile_prefix _).subset hbestKept) hkept hspan
          hcontains.1 ⟨hrowdates.start, hrowdates.stop⟩
      unfold timeOf
      dsimp only
      rw [hlatest, hbestRow]
      show (timed.part, row.date.instant, row.basis) = _
      rw [hrowdates.date, hrowdates.basis]
      rfl
    · refine ih hordered' (fun row h => hspans row (hsub.subset h))
        (fun other h => hparts other (List.mem_cons_of_mem _ h)) hbehind.2 fun other hother => ?_
      obtain ⟨row, hrow, hrowdates⟩ := hdates other (List.mem_cons_of_mem _ hother)
      refine ⟨row, hkeeps hrow ?_, hrowdates⟩
      have := hrowdates.stop
      have := hbehind.1 other hother
      have := hparts other (List.mem_cons_of_mem _ hother)
      omega

/-! ### The round trip -/

theorem timesFrom_nil (recordedAt : Datetime) (fallback : Datetime × Basis) (parts : List Passage) :
    timesFrom recordedAt fallback [] parts = parts.map (timeOf recordedAt fallback []) := by
  induction parts with
  | nil => rfl
  | cons part parts ih =>
    rw [timesFrom, List.dropWhile_nil, ih]
    rfl

theorem stored_null (library : Library) (length : Nat) : library.stored .null length = [] := rfl

/-- A passage without a stored time has its label's or the source's. -/
theorem timeOf_nil (recordedAt : Datetime) (fallback : Datetime × Basis) (part : Passage) :
    timeOf recordedAt fallback [] part = match part.declaredAt with
      | some date => ⟨part, date, part.basis⟩
      | none => ⟨part, fallback.1, fallback.2⟩ := by
  unfold timeOf
  cases part.declaredAt <;> rfl

section Capture

variable {Digest : Type} [DecidableEq Digest]

theorem captured_part (retained : Retained Digest) (sha256 : List Char → Digest) (text : List Char)
    (source : Datetime × Basis) (timed : Timed) :
    (retained.captured sha256 text source timed).part = timed.part := by
  unfold Retained.captured
  split
  · split
    · rfl
    · split <;> rfl
  · split <;> rfl

theorem observed_parts (library : Library) (sha256 : List Char → Digest) (text : List Char)
    (metadata : Metadata) (recordedAt : Datetime) (previous : Option Revision) :
    (library.observed sha256 text metadata recordedAt previous).map (·.part) =
      library.passages text recordedAt := by
  have hpart : ∀ part, (timeOf recordedAt (library.sourceTime metadata recordedAt) [] part).part =
      part := by
    intro part
    rw [timeOf_nil]
    split <;> rfl
  rw [Library.observed, Library.times, stored_null, timesFrom_nil, List.map_map, List.map_map]
  conv_rhs => rw [← List.map_id (library.passages text recordedAt)]
  refine List.map_congr_left fun part _ => ?_
  exact (captured_part _ _ _ _ _).trans (hpart part)

/-- Without a stored value nothing is dated after the revision. -/
theorem base_le {library : Library} {text : List Char} {metadata : Metadata} {recordedAt : Datetime}
    {timed : Timed} (h : timed ∈ library.times text .null metadata recordedAt) :
    timed.date.instant ≤ recordedAt.instant := by
  rw [Library.times, stored_null, timesFrom_nil] at h
  obtain ⟨part, hpart, rfl⟩ := List.mem_map.mp h
  rw [timeOf_nil]
  split
  · rename_i date hdate
    exact passages_declared hpart hdate
  · exact sourceTime_le library metadata recordedAt

/-- **No passage is captured with a time after its revision.** -/
theorem observed_le {library : Library} {sha256 : List Char → Digest} {text : List Char}
    {metadata : Metadata} {recordedAt : Datetime} {previous : Option Revision} {timed : Timed}
    (h : timed ∈ library.observed sha256 text metadata recordedAt previous) :
    timed.date.instant ≤ recordedAt.instant := by
  obtain ⟨base, hbase, rfl⟩ := List.mem_map.mp h
  have hle := base_le hbase
  have hsource := sourceTime_le library metadata recordedAt
  unfold Retained.captured
  split
  · split
    · rename_i hold
      exact hold.trans hle
    · split
      · exact hsource
      · exact hle
  · split
    · exact hsource
    · exact hle

theorem reads_spans {segments : List Segment} {rows : List Row} (h : List.Forall₂ Reads segments rows) :
    rows.map Row.span = segments.map Segment.span := by
  induction h with
  | nil => rfl
  | cons hreads _ ih =>
    rw [List.map_cons, List.map_cons, ih, Row.span, Segment.span, hreads.start, hreads.stop]

/-- A date that is written is read as its instant. -/
theorem Reads.instant {segment : Segment} {row : Row} (h : Reads segment row) (library : Library)
    {date : Datetime} (hdate : segment.date = date.isoformat) : row.date.instant = date.instant := by
  obtain ⟨date', hdate', hsame⟩ := h.date
  obtain ⟨stamp, hstamp, hstampInstant⟩ := timestamp_isoformat library date
  obtain ⟨stamp', hstamp', hstampInstant'⟩ := timestamp_isoformat library date'
  rw [← hdate', hdate, hstamp, Option.some_inj] at hstamp'
  rw [hsame, ← hstampInstant', ← hstamp', hstampInstant]

theorem reads_left {segments : List Segment} {rows : List Row} (h : List.Forall₂ Reads segments rows)
    {segment : Segment} (hsegment : segment ∈ segments) : ∃ row ∈ rows, Reads segment row := by
  obtain ⟨i, hi, rfl⟩ := List.mem_iff_getElem.mp hsegment
  exact ⟨_, List.getElem_mem (h.length_eq ▸ hi), h.get hi _⟩

theorem reads_right {segments : List Segment} {rows : List Row} (h : List.Forall₂ Reads segments rows)
    {row : Row} (hrow : row ∈ rows) : ∃ segment ∈ segments, Reads segment row := by
  obtain ⟨i, hi, rfl⟩ := List.mem_iff_getElem.mp hrow
  exact ⟨_, List.getElem_mem (h.length_eq ▸ hi), h.get _ hi⟩

section Stored

variable (library : Library) (sha256 : List Char → Digest) {text : List Char} (metadata : Metadata)
  (recordedAt : Datetime) (previous : Option Revision) (htext : text ≠ [])

include htext

/-- The passages of a capture lie one behind the other. -/
theorem observed_within : Within 0 text.length
    ((library.observed sha256 text metadata recordedAt previous).map fun timed => timed.part.span) := by
  have hpassages := (passages_within library htext recordedAt).1
  rw [← observed_parts library sha256 text metadata recordedAt previous, List.map_map] at hpassages
  exact hpassages

/-- The segments of a capture are in order, cover its passages and are read back one by one. -/
theorem capture_stored :
    let observed := library.observed sha256 text metadata recordedAt previous
    let value := library.capture sha256 text metadata recordedAt previous
    Written text.length observed (observed.foldl addSegment []) ∧
      get "segments" value = some (.arr ((observed.foldl addSegment []).map Segment.json)) ∧
      List.Forall₂ Reads (observed.foldl addSegment []) (library.stored value text.length) := by
  intro observed value
  have hwritten := written text.length observed
    (observed_within library sha256 metadata recordedAt previous htext)
  obtain ⟨read, hread, hreads⟩ := rows_json library text.length (observed.foldl addSegment [])
    hwritten.within fun segment hsegment => by
      obtain ⟨timed, -, hdate, -⟩ := hwritten.covered segment hsegment
      exact ⟨timed.date, hdate⟩
  have hsegments : get "segments" value =
      some (.arr ((observed.foldl addSegment []).map Segment.json)) := rfl
  have hversion : get "version" value = some (.int 1) := rfl
  have hlength : ¬ MAX_SEGMENTS < ((observed.foldl addSegment []).map Segment.json).length := by
    have hfew := (passages_within library htext recordedAt).2
    have hcount := hwritten.length
    rw [← observed_parts library sha256 text metadata recordedAt previous, List.length_map] at hfew
    rw [List.length_map]
    exact Nat.not_lt.mpr (hcount.trans hfew)
  have hrows : library.stored value text.length = read := by
    rw [Library.stored, hversion, hsegments]
    show (if MAX_SEGMENTS < _ then [] else _) = read
    rw [if_neg hlength, hread]
    rfl
  exact ⟨hwritten, hsegments, hrows ▸ hreads⟩

/-- What is read back of a capture is what was captured. -/
theorem capture_times :
    (library.times text (library.capture sha256 text metadata recordedAt previous) metadata
        recordedAt).map Timed.key =
      (library.observed sha256 text metadata recordedAt previous).map Timed.key := by
  obtain ⟨hwritten, -, hreads⟩ :=
    capture_stored library sha256 metadata recordedAt previous htext
  have hrowsWithin := reads_spans hreads ▸ hwritten.within
  have hwithin := observed_within library sha256 metadata recordedAt previous htext
  have hordered := hwithin.ordered
  rw [List.pairwise_map] at hordered
  have hrowsOrdered := hrowsWithin.ordered
  rw [List.pairwise_map] at hrowsOrdered
  rw [Library.times, ← observed_parts library sha256 text metadata recordedAt previous]
  apply timesFrom_eq _ hrowsOrdered
  · exact fun row hrow => (hrowsWithin.bounds row.span (List.mem_map_of_mem hrow)).2.1
  · exact fun timed h => (hwithin.bounds timed.part.span (List.mem_map.mpr ⟨timed, h, rfl⟩)).2.1
  · exact hordered
  · intro timed hmem
    obtain ⟨segment, hsegment, hcovers⟩ := hwritten.covers timed hmem
    obtain ⟨row, hrow, hsr⟩ := reads_left hreads hsegment
    exact ⟨row, hrow, hsr.start ▸ hcovers.start, hsr.stop ▸ hcovers.stop,
      hsr.instant library hcovers.date, hsr.basis.trans hcovers.basis, observed_le hmem⟩

end Stored

/-- **Stored chronology round-trips.** -/
theorem capture_read (library : Library) (sha256 : List Char → Digest) (text : List Char)
    (metadata : Metadata) (recordedAt : Datetime) (previous : Option Revision) (htext : text ≠ []) :
    let observed := library.observed sha256 text metadata recordedAt previous
    let value := library.capture sha256 text metadata recordedAt previous
    let rows := library.stored value text.length
    (∃ segments, get "segments" value = some (.arr segments) ∧ rows.length = segments.length ∧
        rows ≠ []) ∧
      Within 0 text.length (rows.map Row.span) ∧
      (library.times text value metadata recordedAt).map Timed.key = observed.map Timed.key ∧
      (∀ timed ∈ observed, timed.date.instant ≤ recordedAt.instant) ∧
      ∀ row ∈ rows, row.date.instant ≤ recordedAt.instant := by
  intro observed value rows
  obtain ⟨hwritten, hsegments, hreads⟩ :=
    capture_stored library sha256 metadata recordedAt previous htext
  refine ⟨⟨_, hsegments, ?_, ?_⟩, reads_spans hreads ▸ hwritten.within,
    capture_times library sha256 metadata recordedAt previous htext, fun _ h => observed_le h, ?_⟩
  · rw [List.length_map, hreads.length_eq]
  · -- a text has at least one passage
    have hpassage : library.passages text recordedAt ≠ [] := by
      unfold Library.passages
      dsimp only
      split
      · exact List.cons_ne_nil _ _
      · split
        · exact List.cons_ne_nil _ _
        · rename_i hne
          exact hne
    rw [← observed_parts library sha256 text metadata recordedAt previous] at hpassage
    obtain ⟨timed, hmem⟩ := List.exists_mem_of_ne_nil observed fun h => hpassage (by
      rw [show library.observed sha256 text metadata recordedAt previous = [] from h]; rfl)
    obtain ⟨segment, hsegment, -⟩ := hwritten.covers timed hmem
    obtain ⟨row, hrow, -⟩ := reads_left hreads hsegment
    exact List.ne_nil_of_mem hrow
  · intro row hrow
    obtain ⟨segment, hsegment, hsr⟩ := reads_right hreads hrow
    obtain ⟨timed, hmem, hdate, -⟩ := hwritten.covered segment hsegment
    rw [hsr.instant library hdate]
    exact observed_le hmem

end Capture

/-- The ASCII digits, and no other dates than those written out. -/
def asciiLibrary : Library := ⟨Char.isDigit, fun _ => none⟩

def writtenAt : Datetime :=
  ⟨63926000000000000, 0, 63926000000000000, by decide, by decide, by decide, zero_offset⟩

theorem capture_read_lines :
    (asciiLibrary.times ['X', '\n', 'Y']
        (asciiLibrary.capture id ['X', '\n', 'Y'] (fun _ => none) writtenAt none) (fun _ => none)
        writtenAt).map Timed.key =
      (asciiLibrary.observed id ['X', '\n', 'Y'] (fun _ => none) writtenAt none).map Timed.key :=
  (capture_read asciiLibrary id ['X', '\n', 'Y'] (fun _ => none) writtenAt none
    (List.cons_ne_nil _ _)).2.2.1

end Mnemion.PassageTime
