import Mathlib.Data.List.Infix
import LoxScript.Prompt

/-!
# Accounts of what is typed

In a dialogue lines are gathered at one prompt after the other, until something is made of them: they
are run, because they are complete or because a blank line asks for it, they are discarded by an
interruption, or they are dropped because the dialogue ends. Such a stretch of a dialogue is a
`Chapter`, and an `Account` divides all that happens into chapters. It tells which line belongs to
which chapter, what waits at each prompt, and which entries are run.

Whether an entry is complete does not depend on the machine. So the account is found from the events
alone (`exists_account`), and there is only one (`Account.Lawful.unique`).
-/

namespace LoxScript

open Dialogue (leavingWords)

/-! ## Chapters -/

/-- What ends the gathering of lines when the dialogue goes on. -/
inductive Turn where
  /-- A line with which the entry is not incomplete any longer. -/
  | last (text : String)
  /-- A blank line behind an entry that waits. -/
  | blank (text : String)
  /-- An interruption of an entry that waits. -/
  | interrupt

/-- What ends a dialogue. -/
inductive Leave where
  /-- One of the words that leave. -/
  | word (text : String)
  /-- An interruption where no entry waits. -/
  | interrupt
  /-- The end of the input. -/
  | inputEnds

/-- A stretch of a dialogue from a prompt at which nothing waits to the next one. -/
structure Chapter where
  /-- The lines that came to wait. -/
  waiting : List String
  turn : Turn

/-- An account of all that happens in a dialogue. -/
structure Account where
  chapters : List Chapter
  /-- The lines that came to wait at last. They are dropped. -/
  waiting : List String
  leave : Leave
  /-- The events behind the end of the dialogue, which are not attended to. -/
  unread : List Event

/-- What the user does to bring about the turn. -/
def Turn.event : Turn → Event
  | last text | blank text => .line text
  | interrupt => .interrupt

namespace Leave

/-- What the user does to leave, if anything. -/
def events : Leave → List Event
  | word text => [.line text]
  | interrupt => [.interrupt]
  | inputEnds => []

/-- What is written on leaving. -/
def stdout : Leave → String
  | word _ => ""
  | interrupt => Text.line "\nInterrupted."
  | inputEnds => Text.line ""

end Leave

namespace Chapter

/-- What the user does in a chapter. -/
def events (c : Chapter) : List Event := c.waiting.map .line ++ [c.turn.event]

/-- The lines that are run as one entry, if any are. -/
def entry? (c : Chapter) : Option (List String) :=
  match c.turn with
  | .last text => some (c.waiting ++ [text])
  | .blank _ => some c.waiting
  | .interrupt => none

end Chapter

/-- The lines wait: they are incomplete however many of them are typed so far, no line is a word that
leaves, and no line behind the first is blank. -/
structure Gathered (b : Bounds) (lines : List String) : Prop where
  incomplete : ∀ ls, ls <+: lines → ls ≠ [] → isIncomplete b (Text.joinLines ls) = true
  stays : ∀ l ∈ lines, Text.trim l ∉ leavingWords
  visible : ∀ l ∈ lines.tail, Text.trim l ≠ ""

/-- The event is a reason to make something of the lines that wait. -/
def Turn.Lawful (b : Bounds) (waiting : List String) : Turn → Prop
  | last text => Text.trim text ∉ leavingWords ∧ (waiting ≠ [] → Text.trim text ≠ "") ∧
      isIncomplete b (Text.joinLines (waiting ++ [text])) = false
  | blank text => waiting ≠ [] ∧ Text.trim text = ""
  | interrupt => waiting ≠ []

/-- The lines of the chapter have to wait until its turn, and the turn ends the wait. -/
structure Chapter.Lawful (b : Bounds) (c : Chapter) : Prop where
  gathered : Gathered b c.waiting
  turn : c.turn.Lawful b c.waiting

namespace Account

variable (a : Account)

/-- What the user does from the start of the dialogue to its end, and what is left unread. -/
def events : List Event :=
  a.chapters.flatMap Chapter.events ++ (a.waiting.map .line ++ a.leave.events ++ a.unread)

/-- The lines that wait at each prompt. -/
def gatherings : List (List String) := a.chapters.flatMap (·.waiting.inits) ++ a.waiting.inits

/-- The entries that are run. -/
def entries : List (List String) := a.chapters.filterMap Chapter.entry?

/-- The dialogue has a reason to end where the account does. -/
def Leaves : Prop :=
  match a.leave with
  | .word text => Text.trim text ∈ leavingWords
  | .interrupt => a.waiting = []
  | .inputEnds => a.unread = []

/-- Each chapter is lawful, the last lines have to wait, and the dialogue is left as the account
says. -/
structure Lawful (b : Bounds) : Prop where
  chapters : ∀ c ∈ a.chapters, c.Lawful b
  gathered : Gathered b a.waiting
  leaves : a.Leaves

end Account

/-! ## What is written -/

/-- What a dialogue writes between two prompts, to the standard output and as errors. -/
abbrev Writing := String × String

/-- Nothing is written behind the lines that come to wait. -/
def silences (waiting : List String) : List Writing := List.replicate waiting.length ("", "")

/-- What is written in the chapters, behind each prompt, given the reports on their entries. -/
def Chapter.writings : List Chapter → List Report → List Writing
  | [], _ => []
  | c :: cs, rs =>
    silences c.waiting ++
      match c.entry?, rs with
      | some _, r :: rs => (r.output, r.errorText) :: writings cs rs
      | some _, [] => []
      | none, rs => (Text.line "\nDiscarded.", "") :: writings cs rs

/-- What is written in a dialogue behind its prompts, given the reports on its entries. -/
def Account.writings (a : Account) (rs : List Report) : List Writing :=
  Chapter.writings a.chapters rs ++ (silences a.waiting ++ [(a.leave.stdout, "")])

namespace Account

/-- The account with one more chapter in front. -/
def cons (c : Chapter) (a : Account) : Account := { a with chapters := c :: a.chapters }

variable {b : Bounds} (c : Chapter) (a : Account)

/-- The events of a chapter come first. -/
theorem events_cons : (a.cons c).events = c.events ++ a.events := by
  simp [cons, events]

theorem events_of_cons (cs : List Chapter) (waiting : List String) (leave : Leave)
    (unread : List Event) :
    events ⟨c :: cs, waiting, leave, unread⟩ =
      c.waiting.map .line ++ (c.turn.event :: events ⟨cs, waiting, leave, unread⟩) := by
  simp [events, Chapter.events]

theorem gatherings_cons : (a.cons c).gatherings = c.waiting.inits ++ a.gatherings := by
  simp [cons, gatherings]

theorem entries_cons : (a.cons c).entries = c.entry?.toList ++ a.entries := by
  unfold cons entries
  cases h : c.entry? <;> simp [h]

variable {c a}

theorem writings_cons_of_entry {lines : List String} (h : c.entry? = some lines) (r : Report)
    (rs : List Report) :
    (a.cons c).writings (r :: rs) =
      silences c.waiting ++ (r.output, r.errorText) :: a.writings rs := by
  simp [cons, writings, Chapter.writings, h]

theorem writings_cons_of_none (h : c.entry? = none) (rs : List Report) :
    (a.cons c).writings rs =
      silences c.waiting ++ (Text.line "\nDiscarded.", "") :: a.writings rs := by
  simp [cons, writings, Chapter.writings, h]

/-- A lawful chapter may be put in front of a lawful account. -/
theorem Lawful.cons (hc : c.Lawful b) (ha : a.Lawful b) : (a.cons c).Lawful b :=
  ⟨List.forall_mem_cons.mpr ⟨hc, ha.chapters⟩, ha.gathered, ha.leaves⟩

theorem Lawful.of_cons {cs : List Chapter} {waiting : List String} {leave : Leave}
    {unread : List Event} (h : Lawful ⟨c :: cs, waiting, leave, unread⟩ b) :
    c.Lawful b ∧ Lawful ⟨cs, waiting, leave, unread⟩ b := by
  obtain ⟨hc, hcs⟩ := List.forall_mem_cons.mp h.chapters
  exact ⟨hc, hcs, h.gathered, h.leaves⟩

/-- What waits at a prompt is incomplete. -/
theorem Lawful.waits (ha : a.Lawful b) {ls : List String} (hls : ls ∈ a.gatherings) (hne : ls ≠ []) :
    isIncomplete b (Text.joinLines ls) = true := by
  rcases List.mem_append.mp hls with hls | hls
  · obtain ⟨c, hc, hls⟩ := List.mem_flatMap.mp hls
    exact (ha.chapters c hc).gathered.incomplete ls ((List.mem_inits ls c.waiting).mp hls) hne
  · exact ha.gathered.incomplete ls ((List.mem_inits ls a.waiting).mp hls) hne

end Account

/-- The machine behind some runs. -/
def Machine.behind (m : Machine) (rs : List Report) : Machine := rs.foldl (fun _ r => r.machine) m

namespace Transcript

/-- The prompts that are shown, in order. -/
def prompts (t : Transcript) : List String := t.steps.map Step.prompt

/-- What is written in front of the first prompt, and behind each one. -/
def writings (t : Transcript) : List Writing :=
  t.steps.map (fun step => (step.stdout, step.stderr)) ++ [(t.final.stdout, t.final.stderr)]

end Transcript

/-- The prompt at which these lines wait. -/
def promptFor (waiting : List String) : String := if waiting = [] then "> " else "... "

theorem Dialogue.prompt_eq (d : Dialogue) : d.prompt = promptFor d.pending := by
  unfold prompt promptFor
  cases d.pending <;> rfl

/-! ## Gathering lines -/

namespace Gathered

variable {b : Bounds} {lines : List String} {text : String}

/-- Where nothing waits, nothing was gathered. -/
theorem nil (b : Bounds) : Gathered b [] where
  incomplete _ hls hne := absurd (List.prefix_nil.mp hls) hne
  stays _ hl := absurd hl List.not_mem_nil
  visible _ hl := absurd hl List.not_mem_nil

/-- One more line comes to wait. -/
theorem concat (h : Gathered b lines) (hstays : Text.trim text ∉ leavingWords)
    (hvisible : lines ≠ [] → Text.trim text ≠ "")
    (hincomplete : isIncomplete b (Text.joinLines (lines ++ [text])) = true) :
    Gathered b (lines ++ [text]) where
  incomplete ls hls hne := by
    rcases List.prefix_concat_iff.mp hls with rfl | hls
    · exact hincomplete
    · exact h.incomplete ls hls hne
  stays l hl := by
    rcases List.mem_append.mp hl with hl | hl
    · exact h.stays l hl
    · rwa [List.mem_singleton.mp hl]
  visible l hl := by
    cases lines with
    | nil => cases hl
    | cons first lines =>
      rcases List.mem_append.mp hl with hl | hl
      · exact h.visible l hl
      · rw [List.mem_singleton.mp hl]
        exact hvisible (List.cons_ne_nil first lines)

/-- The lines that came to wait at first. -/
theorem of_append {later : List String} (h : Gathered b (lines ++ later)) : Gathered b lines where
  incomplete ls hls := h.incomplete ls (hls.trans (List.prefix_append lines later))
  stays l hl := h.stays l (List.mem_append_left later hl)
  visible l hl := by
    cases lines with
    | nil => cases hl
    | cons first lines => exact h.visible l (List.mem_append_left later hl)

/-- What holds of a line that comes to wait behind others. -/
theorem of_concat (h : Gathered b (lines ++ [text])) :
    Text.trim text ∉ leavingWords ∧ (lines ≠ [] → Text.trim text ≠ "") ∧
      isIncomplete b (Text.joinLines (lines ++ [text])) = true := by
  refine ⟨h.stays text (by simp), fun hne => h.visible text ?_, ?_⟩
  · rw [List.tail_append_of_ne_nil hne]
    simp
  · exact h.incomplete _ List.prefix_rfl (by simp)

end Gathered

/-! ## The account of the events -/

/-- All events are accounted for, whatever waits in front of them. -/
theorem exists_account (b : Bounds) (events : List Event) {waiting : List String}
    (h : Gathered b waiting) :
    ∃ a : Account, a.Lawful b ∧ a.events = waiting.map .line ++ events := by
  -- behind a chapter, nothing waits
  have hnext : ∀ (c : Chapter) (es : List Event), c.Lawful b →
      (∃ a : Account, a.Lawful b ∧ a.events = es) →
        ∃ a : Account, a.Lawful b ∧ a.events = c.events ++ es := by
    rintro c es hc ⟨a, ha, rfl⟩
    exact ⟨a.cons c, ha.cons hc, a.events_cons c⟩
  induction events generalizing waiting with
  | nil => exact ⟨⟨[], waiting, .inputEnds, []⟩, ⟨by simp, h, rfl⟩, by simp [Account.events, Leave.events]⟩
  | cons e es ih =>
    have hlater : ∃ a : Account, a.Lawful b ∧ a.events = es := ih (Gathered.nil b)
    cases e with
    | interrupt =>
      by_cases hne : waiting = []
      · subst hne
        exact ⟨⟨[], [], .interrupt, es⟩, ⟨by simp, h, rfl⟩, by simp [Account.events, Leave.events]⟩
      · obtain ⟨a, ha, hevents⟩ := hnext ⟨waiting, .interrupt⟩ es ⟨h, hne⟩ hlater
        exact ⟨a, ha, by simp [hevents, Chapter.events, Turn.event]⟩
    | line text =>
      by_cases hword : Text.trim text ∈ leavingWords
      · exact ⟨⟨[], waiting, .word text, es⟩, ⟨by simp, h, hword⟩,
          by simp [Account.events, Leave.events]⟩
      by_cases hblank : waiting ≠ [] ∧ Text.trim text = ""
      · obtain ⟨a, ha, hevents⟩ := hnext ⟨waiting, .blank text⟩ es ⟨h, hblank⟩ hlater
        exact ⟨a, ha, by simp [hevents, Chapter.events, Turn.event]⟩
      have hvisible : waiting ≠ [] → Text.trim text ≠ "" := fun hne htrim => hblank ⟨hne, htrim⟩
      cases hincomplete : isIncomplete b (Text.joinLines (waiting ++ [text])) with
      | true =>
        obtain ⟨a, ha, hevents⟩ := ih (h.concat hword hvisible hincomplete)
        exact ⟨a, ha, by simp [hevents]⟩
      | false =>
        obtain ⟨a, ha, hevents⟩ :=
          hnext ⟨waiting, .last text⟩ es ⟨h, hword, hvisible, hincomplete⟩ hlater
        exact ⟨a, ha, by simp [hevents, Chapter.events, Turn.event]⟩

/-! ## No other account -/

/-- What follows the lines that wait is no line that comes to wait as well. -/
def Closes (b : Bounds) (waiting : List String) (es : List Event) : Prop :=
  ∀ text later, es = .line text :: later → ¬ Gathered b (waiting ++ [text])

/-- Which lines wait is clear from the events. -/
theorem waiting_unique {b : Bounds} {waiting waiting' : List String} {es es' : List Event}
    (hwaiting : Gathered b waiting) (hwaiting' : Gathered b waiting') (hes : Closes b waiting es)
    (hes' : Closes b waiting' es')
    (h : waiting.map Event.line ++ es = waiting'.map Event.line ++ es') :
    waiting = waiting' ∧ es = es' := by
  -- if more lines waited the second time, the first of them could have waited the first time
  have hmore : ∀ {ls ls' : List String} {ks ks' fs : List Event}, Closes b ls ks →
      Gathered b ls' → ls'.map Event.line = ls.map Event.line ++ fs → ks = fs ++ ks' →
        ls = ls' ∧ ks = ks' := by
    intro ls ls' ks ks' fs hcloses hgathered hls hks
    obtain ⟨us, vs, rfl, hus, rfl⟩ := List.map_eq_append_iff.mp hls
    obtain rfl : us = ls := List.map_injective_iff.mpr (fun _ _ h => by cases h; rfl) hus
    cases vs with
    | nil => exact ⟨(List.append_nil us).symm, hks⟩
    | cons text vs =>
      rw [List.append_cons] at hgathered
      exact absurd hgathered.of_append (hcloses text _ hks)
  rcases List.append_eq_append_iff.mp h with ⟨fs, hls, hks⟩ | ⟨fs, hls, hks⟩
  · exact hmore hes hwaiting' hls hks
  · obtain ⟨hls, hks⟩ := hmore hes' hwaiting hls hks
    exact ⟨hls.symm, hks.symm⟩

/-- A turn closes the lines that wait. -/
theorem Turn.Lawful.closes {b : Bounds} {waiting : List String} {turn : Turn}
    (h : turn.Lawful b waiting) (es : List Event) : Closes b waiting (turn.event :: es) := by
  intro text later heq hgathered
  obtain ⟨-, hvisible, hincomplete⟩ := hgathered.of_concat
  cases turn with
  | last text' =>
    cases heq
    rw [h.2.2] at hincomplete
    cases hincomplete
  | blank text' =>
    cases heq
    exact hvisible h.1 h.2
  | interrupt => cases heq

theorem Account.Leaves.closes {b : Bounds} {a : Account} (h : a.Leaves) :
    Closes b a.waiting (a.leave.events ++ a.unread) := by
  obtain ⟨cs, waiting, leave, unread⟩ := a
  intro text later heq hgathered
  cases leave with
  | word text' =>
    cases heq
    exact hgathered.of_concat.1 h
  | interrupt => cases heq
  | inputEnds =>
    obtain rfl : unread = [] := h
    cases heq

/-- For the same lines, the event tells the turn. -/
theorem Turn.Lawful.unique {b : Bounds} {waiting : List String} {turn turn' : Turn}
    (h : turn.Lawful b waiting) (h' : turn'.Lawful b waiting) (heq : turn.event = turn'.event) :
    turn = turn' := by
  cases turn <;> cases turn' <;> cases heq
  case last.last => rfl
  case blank.blank => rfl
  case interrupt.interrupt => rfl
  case last.blank => exact absurd h'.2 (h.2.1 h'.1)
  case blank.last => exact absurd h.2 (h'.2.1 h.1)

/-- Where a dialogue goes on, it does not end. -/
theorem Account.Leaves.not_turn {b : Bounds} {a : Account} {turn : Turn} {es : List Event}
    (h : a.Leaves) (hturn : turn.Lawful b a.waiting) :
    turn.event :: es ≠ a.leave.events ++ a.unread := by
  obtain ⟨cs, waiting, leave, unread⟩ := a
  intro heq
  cases leave with
  | word text =>
    cases turn with
    | last text' =>
      cases heq
      exact hturn.1 h
    | blank text' =>
      cases heq
      have hmem : Text.trim text ∈ leavingWords := h
      rw [hturn.2] at hmem
      revert hmem
      decide
    | interrupt => cases heq
  | interrupt =>
    cases turn with
    | last text' => cases heq
    | blank text' => cases heq
    | interrupt => exact hturn h
  | inputEnds =>
    obtain rfl : unread = [] := h
    cases heq

/-- How a dialogue is left is clear from the events. -/
theorem Account.Leaves.unique {a a' : Account} (h : a.Leaves) (h' : a'.Leaves)
    (heq : a.leave.events ++ a.unread = a'.leave.events ++ a'.unread) :
    a.leave = a'.leave ∧ a.unread = a'.unread := by
  obtain ⟨cs, waiting, leave, unread⟩ := a
  obtain ⟨cs', waiting', leave', unread'⟩ := a'
  cases leave with
  | inputEnds =>
    obtain rfl : unread = [] := h
    cases leave' with
    | inputEnds => exact ⟨rfl, heq⟩
    | _ => cases heq
  | word text =>
    cases leave' with
    | word text' =>
      cases heq
      exact ⟨rfl, rfl⟩
    | interrupt => cases heq
    | inputEnds =>
      obtain rfl : unread' = [] := h'
      cases heq
  | interrupt =>
    cases leave' with
    | word text' => cases heq
    | interrupt =>
      cases heq
      exact ⟨rfl, rfl⟩
    | inputEnds =>
      obtain rfl : unread' = [] := h'
      cases heq

theorem Account.events_of_end (waiting : List String) (leave : Leave) (unread : List Event) :
    Account.events ⟨[], waiting, leave, unread⟩ =
      waiting.map .line ++ (leave.events ++ unread) := by
  simp [events]

/-- The events have one account only. -/
theorem Account.Lawful.unique {b : Bounds} {a a' : Account} (ha : a.Lawful b) (ha' : a'.Lawful b)
    (h : a.events = a'.events) : a = a' := by
  obtain ⟨cs, waiting, leave, unread⟩ := a
  obtain ⟨cs', waiting', leave', unread'⟩ := a'
  -- chapter by chapter: the lines that wait are clear first, and then what ends them
  induction cs generalizing cs' with
  | nil =>
    cases cs' with
    | nil =>
      rw [events_of_end, events_of_end] at h
      obtain ⟨rfl, hleave⟩ := waiting_unique ha.gathered ha'.gathered ha.leaves.closes
        ha'.leaves.closes h
      obtain ⟨rfl, rfl⟩ := ha.leaves.unique ha'.leaves hleave
      rfl
    | cons c' cs' =>
      obtain ⟨hc', -⟩ := ha'.of_cons
      rw [events_of_end, events_of_cons] at h
      obtain ⟨rfl, hleave⟩ := waiting_unique ha.gathered hc'.gathered ha.leaves.closes
        (hc'.turn.closes _) h
      exact absurd hleave.symm (ha.leaves.not_turn hc'.turn)
  | cons c cs ih =>
    obtain ⟨hc, hlater⟩ := ha.of_cons
    cases cs' with
    | nil =>
      rw [events_of_end, events_of_cons] at h
      obtain ⟨rfl, hleave⟩ := waiting_unique hc.gathered ha'.gathered (hc.turn.closes _)
        ha'.leaves.closes h
      exact absurd hleave (ha'.leaves.not_turn hc.turn)
    | cons c' cs' =>
      obtain ⟨hc', hlater'⟩ := ha'.of_cons
      rw [events_of_cons, events_of_cons] at h
      obtain ⟨hwaiting, hrest⟩ := waiting_unique hc.gathered hc'.gathered (hc.turn.closes _)
        (hc'.turn.closes _) h
      obtain ⟨hturn, hevents⟩ := List.cons.inj hrest
      obtain ⟨rfl, rfl, rfl, rfl⟩ := Account.mk.inj (ih hlater cs' hlater' hevents)
      obtain ⟨lines, turn⟩ := c
      obtain ⟨lines', turn'⟩ := c'
      obtain rfl : lines = lines' := hwaiting
      obtain rfl : turn = turn' := hc.turn.unique hc'.turn hturn
      rfl

end LoxScript
