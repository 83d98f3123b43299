import LoxScript.Proofs.Prompt.Account
import LoxScript.Proofs.Prompt.Flushing

/-!
# What becomes of the lines that are typed

The course of a dialogue is clear from its account (`Account`) and from what the runs of its entries
report (`Dialogue.follows_account`). This is seen one event at a time, then for the lines that come to
wait, and then one chapter at a time, each of which begins where nothing waits. So no line that is
typed is lost or run twice (`Dialogue.every_line_is_accounted_for`).
-/

namespace LoxScript

namespace Dialogue

variable {b : Bounds} {d d' : Dialogue} {m : Machine} {e : Event} {es : List Event}

/-! ## One event -/

/-- A word that leaves ends the dialogue, also where an entry waits. -/
theorem onLine_of_word {text : String} (h : Text.trim text ∈ leavingWords) :
    d.onLine b text = .ok ⟨d, "", "", true⟩ := by
  have hword : leavingWords.contains (Text.trim text) = true := by simpa using h
  unfold onLine
  simp only [hword, if_true]

/-! ## The course of a dialogue -/

/-- From here on, the events lead through these prompts to this end, and this is written behind the
prompts. -/
def Proceeds (b : Bounds) (d : Dialogue) (es : List Event) (prompts : List String)
    (writings : List Writing) (final : Dialogue) : Prop :=
  ∀ out err, ∃ t, d.converse b out err es = .ok t ∧ t.prompts = prompts ∧
    t.writings = (out, err) :: writings ∧ t.final.dialogue = final

/-- From here on, the events lead to an entry whose run breaks off. -/
def BreaksOff (b : Bounds) (d : Dialogue) (es : List Event) (h : Halt) : Prop :=
  ∀ out err, d.converse b out err es = .error h

section

variable {prompts : List String} {writings : List Writing} {final : Dialogue} {out err : String}

/-- Where the input ends, a line is closed at the prompt, and nothing else is done. -/
theorem proceeds_end (d : Dialogue) : d.Proceeds b [] [d.prompt] [(Text.line "", "")] d :=
  fun _ _ => ⟨_, rfl, rfl, rfl, rfl⟩

/-- An event that leaves is the last one that is looked at. -/
theorem proceeds_of_leaves (h : d.respond b e = .ok ⟨d', out, err, true⟩) :
    d.Proceeds b (e :: es) [d.prompt] [(out, err)] d' := by
  intro out' err'
  refine ⟨⟨[⟨d.prompt, out', err'⟩], ⟨d', out, err, true⟩⟩, ?_, rfl, rfl, rfl⟩
  rw [converse, h]
  rfl

/-- An event that does not leave adds its prompt, and what is written in response. -/
theorem Proceeds.cons (hlater : d'.Proceeds b es prompts writings final)
    (h : d.respond b e = .ok ⟨d', out, err, false⟩) :
    d.Proceeds b (e :: es) (d.prompt :: prompts) ((out, err) :: writings) final := by
  intro out' err'
  obtain ⟨t, ht, hprompts, hwritings, hfinal⟩ := hlater out err
  refine ⟨_, converse_of_respond h ht, congrArg (d.prompt :: ·) hprompts, ?_, hfinal⟩
  exact congrArg ((out', err') :: ·) hwritings

theorem BreaksOff.cons {halt : Halt} (hlater : d'.BreaksOff b es halt)
    (h : d.respond b e = .ok ⟨d', out, err, false⟩) : d.BreaksOff b (e :: es) halt := by
  intro out' err'
  rw [converse, h]
  show (do
      let later ← d'.converse b out err es
      return (⟨⟨d.prompt, out', err'⟩ :: later.steps, later.final⟩ : Transcript)) = _
  rw [hlater out err]
  rfl

/-- A response that breaks off breaks off the dialogue. -/
theorem breaksOff_of_respond {halt : Halt} (h : d.respond b e = .error halt) :
    d.BreaksOff b (e :: es) halt := by
  intro out' err'
  rw [converse, h]
  rfl

end

/-! ## Lines that come to wait -/

/-- A line that comes to wait is all that changes. -/
theorem respond_of_gathered {pending : List String} {text : String}
    (h : Gathered b (pending ++ [text])) :
    (⟨m, pending⟩ : Dialogue).respond b (.line text) =
      .ok ⟨⟨m, pending ++ [text]⟩, "", "", false⟩ := by
  obtain ⟨hstays, hvisible, hincomplete⟩ := h.of_concat
  rw [respond, onLine_of_kept hstays hvisible]
  exact if_pos hincomplete

/-- While lines come to wait, nothing is written. -/
theorem Proceeds.lines (pending : List String) {lines : List String} {prompts : List String}
    {writings : List Writing} {final : Dialogue} (h : Gathered b (pending ++ lines))
    (hlater : (⟨m, pending ++ lines⟩ : Dialogue).Proceeds b es
      (promptFor (pending ++ lines) :: prompts) writings final) :
    (⟨m, pending⟩ : Dialogue).Proceeds b (lines.map .line ++ es)
      (lines.inits.map (promptFor <| pending ++ ·) ++ prompts) (silences lines ++ writings)
      final := by
  induction lines generalizing pending with
  | nil => simpa [silences] using hlater
  | cons text lines ih =>
    have hsplit : pending ++ text :: lines = pending ++ [text] ++ lines := by simp
    rw [hsplit] at h hlater
    have hwaits := respond_of_gathered (m := m) h.of_append
    have hcourse := (ih _ h hlater).cons hwaits
    rw [prompt_eq] at hcourse
    simpa [silences, List.replicate_succ, Function.comp_def] using hcourse

/-- Lines that come to wait put off the break behind them. -/
theorem BreaksOff.lines (pending : List String) {lines : List String} {halt : Halt}
    (h : Gathered b (pending ++ lines))
    (hlater : (⟨m, pending ++ lines⟩ : Dialogue).BreaksOff b es halt) :
    (⟨m, pending⟩ : Dialogue).BreaksOff b (lines.map .line ++ es) halt := by
  induction lines generalizing pending with
  | nil => simpa using hlater
  | cons text lines ih =>
    have hsplit : pending ++ text :: lines = pending ++ [text] ++ lines := by simp
    rw [hsplit] at h hlater
    have hwaits := respond_of_gathered (m := m) h.of_append
    exact (ih _ h hlater).cons hwaits

/-! ## Chapters, one after the other -/

/-- What ends the gathering of lines runs the entry or discards it. -/
theorem respond_turn (m : Machine) {c : Chapter} (h : c.Lawful b) :
    (⟨m, c.waiting⟩ : Dialogue).respond b c.turn.event =
      match c.entry? with
      | some lines => (⟨m, c.waiting⟩ : Dialogue).enter b lines
      | none => .ok ⟨⟨m, []⟩, Text.line "\nDiscarded.", "", false⟩ := by
  obtain ⟨waiting, turn⟩ := c
  obtain ⟨-, hturn⟩ := h
  cases turn with
  | last text =>
    obtain ⟨hstays, hvisible, hcomplete⟩ := hturn
    exact (onLine_of_kept hstays hvisible).trans (if_neg (by simp [hcomplete]))
  | blank text => exact onLine_of_blank hturn.1 hturn.2
  | interrupt =>
    have hne : ¬ waiting.isEmpty = true := mt List.isEmpty_iff.mp hturn
    exact congrArg Except.ok (if_neg hne)

theorem enter_of_ok {lines : List String} {r : Report}
    (h : run b (Text.joinLines lines) d.machine = .ok r) :
    d.enter b lines = .ok ⟨⟨r.machine, []⟩, r.output, r.errorText, false⟩ := by
  unfold enter
  rw [h]
  rfl

theorem enter_of_error {lines : List String} {halt : Halt}
    (h : run b (Text.joinLines lines) d.machine = .error halt) : d.enter b lines = .error halt := by
  unfold enter
  rw [h]
  rfl

/-- A run that ends leaves its machine to the next entry. -/
theorem runAll_cons_of_ok {source : String} {sources : List String} {r : Report}
    (h : run b source m = .ok r) :
    runAll b (source :: sources) m = (runAll b sources r.machine).map (r :: ·) := by
  show (do
      let report ← run b source m
      let later ← runAll b sources report.machine
      return report :: later) = _
  rw [h]
  show (runAll b sources r.machine >>= fun later => .ok (r :: later)) = _
  cases runAll b sources r.machine <;> rfl

theorem runAll_cons_of_error {source : String} {sources : List String} {halt : Halt}
    (h : run b source m = .error halt) : runAll b (source :: sources) m = .error halt := by
  show (do
      let report ← run b source m
      let later ← runAll b sources report.machine
      return report :: later) = _
  rw [h]
  rfl

/-- How a dialogue ends at which nothing is made any longer of what waits. -/
theorem proceeds_leave (m : Machine) {a : Account} (ha : a.Leaves) :
    (⟨m, a.waiting⟩ : Dialogue).Proceeds b (a.leave.events ++ a.unread) [promptFor a.waiting]
      [(a.leave.stdout, "")] ⟨m, a.waiting⟩ := by
  obtain ⟨cs, waiting, leave, unread⟩ := a
  cases leave with
  | word text =>
    have hrespond : (⟨m, waiting⟩ : Dialogue).respond b (.line text) =
        .ok ⟨⟨m, waiting⟩, "", "", true⟩ := onLine_of_word ha
    have hleaves : (⟨m, waiting⟩ : Dialogue).Proceeds b (.line text :: unread) _ _ _ :=
      proceeds_of_leaves hrespond
    rwa [prompt_eq] at hleaves
  | interrupt =>
    obtain rfl : waiting = [] := ha
    exact proceeds_of_leaves rfl
  | inputEnds =>
    obtain rfl : unread = [] := ha
    have hend := proceeds_end (b := b) ⟨m, waiting⟩
    rwa [prompt_eq] at hend

section

variable {c : Chapter} {out err : String}

/-- A chapter adds a prompt for each of its events, and only behind the last one is anything written. -/
theorem Proceeds.chapter {prompts : List String} {writings : List Writing} {final : Dialogue}
    (hlater : d'.Proceeds b es prompts writings final) (hc : c.Lawful b)
    (h : (⟨m, c.waiting⟩ : Dialogue).respond b c.turn.event = .ok ⟨d', out, err, false⟩) :
    (⟨m, []⟩ : Dialogue).Proceeds b (c.events ++ es) (c.waiting.inits.map promptFor ++ prompts)
      (silences c.waiting ++ (out, err) :: writings) final := by
  have hturn := hlater.cons h
  rw [prompt_eq] at hturn
  simpa [Chapter.events] using Proceeds.lines [] hc.gathered hturn

/-- A chapter puts off a break behind it. -/
theorem BreaksOff.chapter {halt : Halt} (hlater : d'.BreaksOff b es halt) (hc : c.Lawful b)
    (h : (⟨m, c.waiting⟩ : Dialogue).respond b c.turn.event = .ok ⟨d', out, err, false⟩) :
    (⟨m, []⟩ : Dialogue).BreaksOff b (c.events ++ es) halt := by
  simpa [Chapter.events] using BreaksOff.lines [] hc.gathered (hlater.cons h)

theorem breaksOff_of_chapter {halt : Halt} (hc : c.Lawful b)
    (h : (⟨m, c.waiting⟩ : Dialogue).respond b c.turn.event = .error halt) :
    (⟨m, []⟩ : Dialogue).BreaksOff b (c.events ++ es) halt := by
  have hbreaks : (⟨m, c.waiting⟩ : Dialogue).BreaksOff b (c.turn.event :: es) halt :=
    breaksOff_of_respond h
  simpa [Chapter.events] using BreaksOff.lines [] hc.gathered hbreaks

end

/-- What the runs of its entries make of an account. -/
def Follows (b : Bounds) (a : Account) (m : Machine) : Except Halt (List Report) → Prop
  | .error halt => (⟨m, []⟩ : Dialogue).BreaksOff b a.events halt
  | .ok reports =>
    (⟨m, []⟩ : Dialogue).Proceeds b a.events (a.gatherings.map promptFor) (a.writings reports)
      ⟨m.behind reports, a.waiting⟩

/-- A chapter without an entry runs nothing. -/
theorem follows_cons_of_none {c : Chapter} {a : Account} {r : Except Halt (List Report)}
    (hc : c.Lawful b) (hentry : c.entry? = none) (h : Follows b a m r) :
    Follows b (a.cons c) m r := by
  have hturn := respond_turn m hc
  rw [hentry] at hturn
  cases r with
  | error halt =>
    rw [Follows, Account.events_cons]
    exact BreaksOff.chapter h hc hturn
  | ok reports =>
    rw [Follows, Account.events_cons, Account.gatherings_cons,
      Account.writings_cons_of_none hentry, List.map_append]
    exact Proceeds.chapter h hc hturn

/-- A chapter with an entry runs it first. -/
theorem follows_cons_of_entry {c : Chapter} {a : Account} {lines : List String} {r : Report}
    {later : Except Halt (List Report)} (hc : c.Lawful b) (hentry : c.entry? = some lines)
    (hrun : run b (Text.joinLines lines) m = .ok r) (h : Follows b a r.machine later) :
    Follows b (a.cons c) m (later.map (r :: ·)) := by
  have hturn := respond_turn m hc
  rw [hentry] at hturn
  have hturn := hturn.trans (enter_of_ok hrun)
  cases later with
  | error halt =>
    rw [Except.map, Follows, Account.events_cons]
    exact BreaksOff.chapter h hc hturn
  | ok reports =>
    rw [Except.map, Follows, Account.events_cons, Account.gatherings_cons,
      Account.writings_cons_of_entry hentry, List.map_append]
    exact Proceeds.chapter h hc hturn

/-- The course of a dialogue is clear from its account and from what the runs of its entries report. -/
theorem follows_account {a : Account} (ha : a.Lawful b) (m : Machine) :
    Follows b a m (runAll b (a.entries.map Text.joinLines) m) := by
  obtain ⟨cs, waiting, leave, unread⟩ := a
  induction cs generalizing m with
  | nil =>
    have hend := proceeds_leave (b := b) m ha.leaves
    have hcourse := Proceeds.lines [] ha.gathered hend
    simpa [Follows, Account.entries, runAll, Account.events, Account.gatherings, Account.writings,
      Chapter.writings, Machine.behind] using hcourse
  | cons c cs ih =>
    obtain ⟨hc, hlater⟩ := ha.of_cons
    show Follows b (Account.cons c ⟨cs, waiting, leave, unread⟩) m
      (runAll b ((Account.cons c ⟨cs, waiting, leave, unread⟩).entries.map Text.joinLines) m)
    rw [Account.entries_cons, List.map_append]
    cases hentry : c.entry? with
    | none => exact follows_cons_of_none hc hentry (ih m hlater)
    | some lines =>
      cases hrun : run b (Text.joinLines lines) m with
      | error halt =>
        have hturn := respond_turn m hc
        rw [hentry] at hturn
        show Follows b _ m (runAll b (Text.joinLines lines :: _) m)
        rw [runAll_cons_of_error hrun, Follows, Account.events_cons]
        exact breaksOff_of_chapter hc (hturn.trans (enter_of_error hrun))
      | ok r =>
        show Follows b _ m (runAll b (Text.joinLines lines :: _) m)
        rw [runAll_cons_of_ok hrun]
        exact follows_cons_of_entry hc hentry hrun (ih r.machine hlater)

/-- At every prompt nothing waits, or an incomplete entry does. All that happens in a dialogue has one
account and no other, in which every line belongs to one chapter, or is dropped at the end, or is the
word that leaves. The entries that the account lists are run in order on one machine; and from what
these runs report it is clear which prompts are shown, what is written behind each of them, and which
scopes the dialogue leaves. If one of the runs breaks off, then so does the dialogue. -/
theorem every_line_is_accounted_for (b : Bounds) :
    (∀ d, Reached b d → d.pending = [] ∧ d.prompt = "> " ∨
      isIncomplete b (Text.joinLines d.pending) = true ∧ d.prompt = "... ") ∧
    ∀ events : List Event, ∃ a : Account, a.Lawful b ∧ a.events = events ∧
      (∀ a' : Account, a'.Lawful b → a'.events = events → a' = a) ∧
      (∀ ls ∈ a.gatherings, ls ≠ [] → isIncomplete b (Text.joinLines ls) = true) ∧
      (∀ halt, runAll b (a.entries.map Text.joinLines) Machine.fresh = .error halt →
        transcript b events = .error halt) ∧
      ∀ reports, runAll b (a.entries.map Text.joinLines) Machine.fresh = .ok reports →
        ∃ t, transcript b events = .ok t ∧ t.prompts = a.gatherings.map promptFor ∧
          t.writings = (banner, "") :: a.writings reports ∧
          t.final.dialogue = ⟨Machine.fresh.behind reports, a.waiting⟩ := by
  refine ⟨fun d hd => ?_, fun events => ?_⟩
  · rw [prompt_eq, promptFor]
    by_cases hne : d.pending = []
    · exact .inl ⟨hne, if_pos hne⟩
    · exact .inr ⟨hd.waits hne, if_neg hne⟩
  · obtain ⟨a, ha, hevents⟩ := exists_account b events (Gathered.nil b)
    rw [List.map_nil, List.nil_append] at hevents
    have hfollows := follows_account ha Machine.fresh
    rw [← hevents]
    refine ⟨a, ha, rfl, fun a' ha' h => ha'.unique ha h, fun ls => ha.waits, fun halt h => ?_,
      fun reports h => ?_⟩
    · rw [h] at hfollows
      exact hfollows banner ""
    · rw [h] at hfollows
      exact hfollows banner ""

/-- A dialogue in which an entry is run because a blank line asks for it, another one is discarded, a
third one is run because it is complete, and a fourth one is dropped. -/
def fourEntries : Account where
  chapters := [⟨[openLine], .blank ""⟩, ⟨["\x7b"], .interrupt⟩, ⟨["print"], .last "true;"⟩]
  waiting := ["\x7b"]
  leave := .word "exit"
  unread := [.line "print false;"]

theorem lawful_fourEntries : fourEntries.Lawful {} := by
  have hline : ∀ l ∈ [openLine, "\x7b", "print"], Gathered {} [l] := by
    intro l hl
    have hincomplete : ∀ l ∈ [openLine, "\x7b", "print"], Text.trim l ∉ leavingWords ∧
        isIncomplete {} (Text.joinLines [l]) = true := by decide +kernel
    exact (Gathered.nil {}).concat (hincomplete l hl).1 (fun h => absurd rfl h) (hincomplete l hl).2
  have hleaves : Text.trim "exit" ∈ leavingWords := by decide +kernel
  refine ⟨?_, hline "\x7b" (by simp), hleaves⟩
  intro c hc
  simp only [fourEntries, List.mem_cons, List.not_mem_nil, or_false] at hc
  rcases hc with rfl | rfl | rfl
  · exact ⟨hline openLine (by simp), List.cons_ne_nil _ _, by decide +kernel⟩
  · exact ⟨hline "\x7b" (by simp), List.cons_ne_nil _ _⟩
  · exact ⟨hline "print" (by simp), by decide +kernel, fun _ => by decide +kernel,
      by decide +kernel⟩

theorem fourEntries_course :
    fresh.prompt = "> " ∧ ∃ t, transcript {} fourEntries.events = .ok t ∧
      t.prompts = ["> ", "... ", "> ", "... ", "> ", "... ", "> ", "... "] ∧
      t.writings = [(banner, ""), ("", ""),
        ("", "[line 1] Error at end: Expect ')' after expression.\n"), ("", ""),
        ("\nDiscarded.\n", ""), ("", ""), ("true\n", ""), ("", ""), ("", "")] ∧
      t.final.dialogue.pending = ["\x7b"] := by
  have hall := every_line_is_accounted_for {}
  have hprompt : fresh.prompt = "> " := by
    rcases hall.1 fresh .fresh with ⟨-, hprompt⟩ | ⟨-, hprompt⟩
    · exact hprompt
    · exact absurd hprompt (by decide)
  obtain ⟨a, -, -, hunique, -, -, hcourse⟩ := hall.2 fourEntries.events
  obtain rfl := hunique fourEntries lawful_fourEntries rfl
  have hreports : (runAll {} (fourEntries.entries.map Text.joinLines) Machine.fresh).toOption.map
      (·.map fun r => (r.output, r.errorText)) =
        some [("", "[line 1] Error at end: Expect ')' after expression.\n"), ("true\n", "")] := by
    decide +kernel
  refine ⟨hprompt, ?_⟩
  cases hrun : runAll {} (fourEntries.entries.map Text.joinLines) Machine.fresh with
  | error halt =>
    rw [hrun] at hreports
    cases hreports
  | ok reports =>
    rw [hrun] at hreports
    obtain ⟨r₁, rs, rfl, h₁, hrs⟩ := List.map_eq_cons_iff.mp (Option.some.inj hreports)
    obtain ⟨r₂, rs, rfl, h₂, hrs⟩ := List.map_eq_cons_iff.mp hrs
    obtain rfl := List.map_eq_nil_iff.mp hrs
    obtain ⟨t, ht, hprompts, hwritings, hfinal⟩ := hcourse _ hrun
    refine ⟨t, ht, hprompts.trans (by decide), hwritings.trans ?_, by rw [hfinal]; rfl⟩
    simp only [Account.writings, Chapter.writings, fourEntries, Chapter.entry?, h₁, h₂]
    rfl

end Dialogue

end LoxScript
