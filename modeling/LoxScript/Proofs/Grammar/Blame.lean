import LoxScript.Proofs.Grammar.Concatenation
import LoxScript.Proofs.Grammar.Continuation

/-!
# The token that is blamed

The first error that breaks off a declaration blames the earliest token that makes the program
impossible to complete (`Program.blames_earliest_token`): the tokens in front of it can be continued
to a program of which no declaration is dropped, and together with it they cannot.

That they cannot is due to the parser having looked no further: whatever follows the blamed token,
it reads the tokens in front of it in the same way, and breaks off.
-/

namespace LoxScript

open ParseState

/-! ## Errors that are noted only -/

/-- The errors noted in between are about the targets of assignments. -/
def ParseState.NotesTargets (s s' : ParseState) : Prop :=
  ∃ es, s'.noted = s.noted ++ es ∧ ∀ f ∈ es, f.cause = .invalidTarget ∧ f.token.kind = .equal

instance : IsPreorder ParseState NotesTargets where
  refl s := ⟨[], by simp⟩
  trans s₁ s₂ s₃ h₁ h₂ := by
    obtain ⟨es, hes, htargets⟩ := h₁
    obtain ⟨fs, hfs, htargets'⟩ := h₂
    refine ⟨es ++ fs, by rw [hfs, hes, List.append_assoc], fun f hf => ?_⟩
    rcases List.mem_append.mp hf with hf | hf
    · exact htargets f hf
    · exact htargets' f hf

namespace Parse

variable {α : Type} {room : Nat} {s s₁ t : ParseState} {e : SyntaxError}

/-- An assignment notes nothing but a target that is no variable. -/
theorem notesTargets_assignmentOf {target value : Parse Expr} (ht : Frames NotesTargets target)
    (hv : Frames NotesTargets value) : Frames NotesTargets (assignmentOf target value) := by
  refine ht.bind fun left s => ?_
  rcases next_cases (·.kind ∈ [TokenKind.equal]) s.cursor.rest with ⟨sign, us, hr, hk⟩ | hother
  · rw [bind_of_ok (accept_of_mem hr hk)]
    have hnote : Frames NotesTargets (note ⟨sign, .invalidTarget⟩) := fun s =>
      ⟨[⟨sign, .invalidTarget⟩], rfl, fun f hf => by
        cases List.mem_singleton.mp hf
        exact ⟨rfl, List.mem_singleton.mp hk⟩⟩
    refine hv.bind (fun e => ?_) s.advance
    split
    · exact .pure _
    · exact hnote.bind fun _ => .pure _
  · rw [bind_of_ok (accept_of_other hother)]
    exact refl_of NotesTargets s

/-- The only errors that are noted without breaking anything off are about the targets of
assignments. -/
theorem Composed.notesTargets {p : Parse α} (h : Composed p) : Frames NotesTargets p :=
  h.frames_of (fun s => ⟨[], by simp⟩) notesTargets_assignmentOf

/-- If no declaration was dropped, only such targets were noted. -/
theorem notesTargets_program (h : (program room s).2.panicked = false) :
    NotesTargets s (program room s).2 := by
  induction s using program_induction room with
  | finished s hr =>
    rw [program_of_end hr]
    exact refl_of NotesTargets s
  | read s d s₁ hr hd ih =>
    rw [program_of_ok hr hd] at h ⊢
    exact trans_of NotesTargets ((composed_declaration room).notesTargets.of_ok hd) (ih h)
  | dropped s e s₁ hr hd ih =>
    rw [program_of_error hr hd, panicked_program rfl] at h
    cases h

/-- If a declaration ends with the last token, none is dropped behind it. -/
theorem kept_of_last {d : Stmt} (hr : s.cursor.rest ≠ []) (hd : declaration room s = .ok d s₁)
    (hr₁ : s₁.cursor.rest = []) : (program room s).2.panicked = s.panicked := by
  rw [program_of_ok hr hd, program_of_end hr₁]
  exact ((composed_declaration room).frames.of_ok hd).panicked

/-! ## The first break -/

/-- The error that breaks off the first declaration that has to be dropped, and the state in which
it does. At most `fuel` declarations are read. -/
def firstBreak (declaration : Parse Stmt) :
    (fuel : Nat) → ParseState → Option (SyntaxError × ParseState)
  | 0, _ => none
  | fuel + 1, s =>
    if s.cursor.atEnd then none
    else
      match declaration s with
      | .ok _ s => firstBreak declaration fuel s
      | .error e s => some (e, s)

theorem firstBreak_of_end {fuel : Nat} (h : s.cursor.rest = []) :
    firstBreak (declaration room) fuel s = none := by
  cases fuel with
  | zero => rfl
  | succ fuel => exact if_pos (by simp [Cursor.atEnd, h])

/-- The first break is that of the first declaration, or of those behind it. -/
theorem firstBreak_succ {fuel : Nat} (h : s.cursor.rest ≠ []) :
    firstBreak (declaration room) (fuel + 1) s =
      match declaration room s with
      | .ok _ s => firstBreak (declaration room) fuel s
      | .error e s => some (e, s) :=
  if_neg (by simpa [Cursor.atEnd] using h)

/-- Induction along the declarations up to the first break. -/
@[elab_as_elim]
theorem firstBreak_induction {motive : ParseState → Prop} {fuel : Nat}
    (raised : ∀ s, s.cursor.rest ≠ [] → declaration room s = .error e s₁ → motive s)
    (read : ∀ s d s', s.cursor.rest ≠ [] → declaration room s = .ok d s' → motive s' → motive s)
    (h : firstBreak (declaration room) fuel s = some (e, s₁)) : motive s := by
  induction fuel generalizing s with
  | zero => cases h
  | succ fuel ih =>
    by_cases hr : s.cursor.rest = []
    · rw [firstBreak_of_end hr] at h
      cases h
    · rw [firstBreak_succ hr] at h
      cases hd : declaration room s with
      | ok d s' =>
        rw [hd] at h
        exact read s d s' hr hd (ih h)
      | error e' s' =>
        rw [hd] at h
        cases h
        exact raised s hr hd

/-- There is a first break exactly if a declaration is dropped. -/
theorem firstBreak_isSome {fuel : Nat} (hf : s.cursor.rest.length ≤ fuel)
    (hs : s.panicked = false) :
    (firstBreak (declaration room) fuel s).isSome = (program room s).2.panicked := by
  induction fuel generalizing s with
  | zero =>
    have hr : s.cursor.rest = [] := List.length_eq_zero_iff.mp (by omega)
    rw [program_of_end hr, hs]
    rfl
  | succ fuel ih =>
    by_cases hr : s.cursor.rest = []
    · rw [firstBreak_of_end hr, program_of_end hr, hs]
      rfl
    · rw [firstBreak_succ hr]
      cases hd : declaration room s with
      | ok d s₁ =>
        have hlt := consumes_declaration room s d s₁ hd
        have hs₁ := ((composed_declaration room).frames.of_ok hd).panicked.trans hs
        rw [program_of_ok hr hd]
        exact ih (by omega) hs₁
      | error e s₁ =>
        rw [program_of_error hr hd, panicked_program rfl]
        rfl

section

variable {fuel : Nat} (h : firstBreak (declaration room) fuel s = some (e, s₁))

include h

/-- Up to the first break all declarations are read, and then the error is noted. -/
theorem program_of_firstBreak : (program room s).2 = (program room (s₁.recover e)).2 := by
  refine firstBreak_induction (fun s hr hd => ?_) (fun s d s' hr hd ih => ?_) h
  · rw [program_of_error hr hd]
  · rw [program_of_ok hr hd]
    exact ih

/-- Up to the first break, only targets are noted. -/
theorem notesTargets_firstBreak : NotesTargets s s₁ := by
  have hframes := (composed_declaration room).notesTargets
  refine firstBreak_induction (fun s hr hd => ?_) (fun s d s' hr hd ih => ?_) h
  · exact hframes.of_error hd
  · exact trans_of NotesTargets (hframes.of_ok hd) ih

/-- Reading passes some tokens up to the first break. -/
theorem leads_firstBreak : ∃ us es, s.Leads us es s₁ := by
  have hframes := (composed_declaration room).frames
  refine firstBreak_induction (fun s hr hd => ?_) (fun s d s' hr hd ih => ?_) h
  · exact (hframes.of_error hd).leads
  · obtain ⟨us, es, hs⟩ := (hframes.of_ok hd).leads
    obtain ⟨vs, fs, hs'⟩ := ih
    exact ⟨_, _, hs.trans hs'⟩

/-- The first break blames the token at which it happens. -/
theorem token_firstBreak : e.token = s₁.cursor.current :=
  firstBreak_induction (fun s _ hd => (composed_declaration room).foresees.blames s e s₁ hd)
    (fun _ _ _ _ _ ih => ih) h

variable {room' : Nat} (hroom : room + 3 ≤ room') (he : e.cause ≠ .tooDeep)

include he

/-- A target is never the reason for a break. -/
theorem cause_firstBreak : e.cause ≠ .invalidTarget := by
  refine firstBreak_induction (fun s _ hd => ?_) (fun _ _ _ _ _ ih => ih) h
  obtain ⟨us, es, hs⟩ := ((composed_declaration room).frames.of_error hd).leads
  have hcompletes := completes_declaration 1 (Nat.le_refl (room + 3))
  exact ((hcompletes.continuesAt s).continues e s₁ us hd he hs.1).1

include hroom

/-- The tokens in front of the first break can be continued to a program of which no declaration is
dropped. -/
theorem exists_completion (line : Int) : ∃ us es fs, s.Leads us es s₁ ∧
    ∀ t, t.cursor.rest = us ++ Filler.tokens line fs →
      (program room' t).2.panicked = t.panicked := by
  have hcompletes := completes_declaration line hroom
  have hclosed : NoElse [] := fun u hu => by cases hu
  refine firstBreak_induction (fun s hr hd => ?_) (fun s d s' hr hd ih => ?_) h
  · obtain ⟨us, es, hs⟩ := ((composed_declaration room).frames.of_error hd).leads
    obtain ⟨-, fs, hfs⟩ := (hcompletes.continuesAt s).continues e s₁ us hd he hs.1
    refine ⟨us, es, fs, hs, fun t ht => ?_⟩
    by_cases hr : t.cursor.rest = []
    · rw [program_of_end hr]
    · obtain ⟨d, t₁, hd, ht₁⟩ := hfs t [] (by rw [ht, List.append_nil]) hclosed
      exact kept_of_last hr hd ht₁
  · obtain ⟨us, es, hs⟩ := ((composed_declaration room).frames.of_ok hd).leads
    obtain ⟨vs, es', fs, hs', hlater⟩ := ih
    have hd' := (hcompletes.continuesAt s).of_ok hd
    have hne : ∀ {t : ParseState} {rest : List Token}, t.cursor.rest = us ++ rest →
        t.cursor.rest ≠ [] := by
      intro t rest ht hnil
      have hlt := consumes_declaration room s d s' hd
      have hlength := congrArg List.length hs.1
      rw [ht, List.append_eq_nil_iff] at hnil
      rw [hnil.1, List.nil_append] at hlength
      omega
    cases vs with
    | nil =>
      -- the next declaration breaks off at its first token; without it the program is complete
      refine ⟨us ++ [], es ++ es', [], hs.trans hs', fun t ht => ?_⟩
      rw [List.append_nil] at ht
      have hread := hcompletes.settles.keeps s d s' us es t [] hd' hs ht hclosed
      exact kept_of_last (hne ht) hread (rest_after_append ht es)
    | cons v vs =>
      refine ⟨us ++ v :: vs, es ++ es', fs, hs.trans hs', fun t ht => ?_⟩
      rw [List.append_assoc] at ht
      have hread := hcompletes.settles.isLocal.ok hd' hs ht (by rw [hs'.1]; rfl)
      rw [program_of_ok (hne ht) hread]
      exact hlater _ (rest_after_append ht es)

/-- Whatever follows the token that is blamed, a declaration is dropped. -/
theorem panicked_of_blamed {u : Token} {ws : List Token} (hu : s₁.cursor.rest = u :: ws) :
    ∃ us es, s.Leads us es s₁ ∧
      ∀ t vs, t.cursor.rest = us ++ u :: vs → (program room' t).2.panicked = true := by
  have hcompletes := completes_declaration 1 hroom
  have hlocal := hcompletes.settles.isLocal
  refine firstBreak_induction (fun s hr hd => ?_) (fun s d s' hr hd ih => ?_) h
  · obtain ⟨us, es, hs⟩ := ((composed_declaration room).frames.of_error hd).leads
    have hd' := (hcompletes.continuesAt s).of_error hd he
    refine ⟨us, es, hs, fun t vs ht => ?_⟩
    have hread := hlocal.error hd' hs ht (by rw [hu]; rfl)
    rw [program_of_error (by simp [ht]) hread]
    exact panicked_program rfl
  · obtain ⟨us, es, hs⟩ := ((composed_declaration room).frames.of_ok hd).leads
    have hd' := (hcompletes.continuesAt s).of_ok hd
    obtain ⟨us', es', hs', hlater⟩ := ih
    refine ⟨us ++ us', es ++ es', hs.trans hs', fun t vs ht => ?_⟩
    rw [List.append_assoc] at ht
    have hnext : (us' ++ u :: vs).head? = s'.cursor.rest.head? := by
      rw [hs'.1, hu]
      exact head?_append_congr rfl
    have hread := hlocal.ok hd' hs ht hnext
    rw [program_of_ok (by simp [ht]) hread]
    exact hlater _ vs (rest_after_append ht es)

end

/-- With more room no further declaration is dropped. -/
theorem kept_of_room {room' : Nat} (hroom : room + 3 ≤ room')
    (h : (program room s).2.panicked = false) : (program room' s).2.panicked = false := by
  induction s using program_induction room with
  | finished s hr =>
    rw [program_of_end hr] at h ⊢
    exact h
  | read s d s₁ hr hd ih =>
    have hd' := ((completes_declaration 1 hroom).continuesAt s).of_ok hd
    rw [program_of_ok hr hd] at h
    rw [program_of_ok hr hd']
    exact ih h
  | dropped s e s₁ hr hd ih =>
    rw [program_of_error hr hd, panicked_program rfl] at h
    cases h

end Parse

theorem Filler.isProper_tokens (line : Int) (fs : List Filler) :
    ∀ t ∈ tokens line fs, Cursor.isProper t = true := by
  intro t ht
  obtain ⟨f, -, rfl⟩ := List.mem_map.mp ht
  cases f <;> rfl

/-- Where one gets to by passing tokens of a list. -/
theorem ParseState.leads_ofTokens {ts us : List Token} {z : Token} {es : List SyntaxError}
    {s : ParseState} (hts : ∀ t ∈ ts, Cursor.isProper t = true) (hz : Cursor.isProper z = false)
    (h : (ofTokens (ts ++ [z])).Leads us es s) :
    s.cursor.position = us.length ∧ ts = us ++ s.cursor.rest ∧ s.cursor.stop = z := by
  rw [ofTokens_closed hts hz] at h
  obtain ⟨hr, rfl⟩ := h
  have hr : ts = us ++ _ := hr
  refine ⟨?_, hr, stop_behind _ _⟩
  rw [hr]
  unfold ParseState.after
  rw [behind_length]
  simp [Cursor.position]

namespace Program

/-- The error that breaks off the first declaration that has to be dropped, and the index of the
token that it blames. -/
def firstBreak (room : Nat) (ts : List Token) : Option (SyntaxError × Nat) :=
  let s := ParseState.ofTokens ts
  (Parse.firstBreak (Parse.declaration room) s.cursor.rest.length s).map fun r =>
    (r.1, r.2.cursor.position)

section

variable {room i : Nat} {ts us : List Token} {y z : Token} {e : SyntaxError}

/-- It does not matter whether reading starts at the list or at its tokens in front of the end mark.
-/
theorem panicked_closed (hts : ∀ t ∈ ts, Cursor.isProper t = true)
    (hz : Cursor.isProper z = false) :
    (ofTokens room (ts ++ [z])).panicked =
      (Parse.program room ⟨⟨[], ts, z, z⟩, [], false⟩).2.panicked := by
  unfold ofTokens
  rw [ofTokens_closed hts hz]

/-- The first break of a list is one of reading its tokens. -/
theorem exists_of_firstBreak (h : firstBreak room ts = some (e, i)) :
    ∃ s₁, Parse.firstBreak (Parse.declaration room) (ParseState.ofTokens ts).cursor.rest.length
      (.ofTokens ts) = some (e, s₁) ∧ i = s₁.cursor.position := by
  obtain ⟨⟨e', s₁⟩, hbreak, hpair⟩ := Option.map_eq_some_iff.mp h
  cases hpair
  exact ⟨s₁, hbreak, rfl⟩

theorem cause_of_firstBreak (h : firstBreak room ts = some (e, i)) : e.cause ≠ .invalidTarget := by
  obtain ⟨s₁, hbreak, -⟩ := exists_of_firstBreak h
  intro hcause
  exact Parse.cause_firstBreak hbreak (by simp [hcause]) hcause

/-- There is a first break exactly if a declaration is dropped. -/
theorem isSome_firstBreak (room : Nat) (ts : List Token) :
    (firstBreak room ts).isSome = (ofTokens room ts).panicked := by
  unfold firstBreak
  rw [Option.isSome_map]
  exact Parse.firstBreak_isSome (Nat.le_refl _) rfl

/-- If a declaration was dropped, there is a first break. -/
theorem exists_firstBreak (h : (ofTokens room ts).panicked = true) :
    ∃ e i, firstBreak room ts = some (e, i) := by
  rw [← isSome_firstBreak] at h
  obtain ⟨⟨e, i⟩, hbreak⟩ := Option.isSome_iff_exists.mp h
  exact ⟨e, i, hbreak⟩

/-- The blamed token stands in the list, at the position of the break. -/
theorem token_of_firstBreak (hts : ∀ t ∈ ts, Cursor.isProper t = true)
    (hz : Cursor.isProper z = false) (h : firstBreak room (ts ++ [z]) = some (e, i)) :
    (ts ++ [z])[i]? = some e.token := by
  obtain ⟨s₁, hbreak, rfl⟩ := exists_of_firstBreak h
  obtain ⟨us, es, hleads⟩ := Parse.leads_firstBreak hbreak
  obtain ⟨hposition, hrest, hstop⟩ := leads_ofTokens hts hz hleads
  rw [hposition, Parse.token_firstBreak hbreak, hrest, List.append_assoc,
    List.getElem?_append_right (Nat.le_refl _), Nat.sub_self, Cursor.current]
  cases s₁.cursor.rest with
  | nil => exact congrArg some hstop.symm
  | cons u ws => rfl

/-- It is either a token of the program that is blamed or the end. -/
theorem blamed_of_firstBreak (hts : ∀ t ∈ ts, Cursor.isProper t = true)
    (hz : Cursor.isProper z = false) (h : firstBreak room (ts ++ [z]) = some (e, i)) :
    i < ts.length ∧ e.token ∈ ts ∨ i = ts.length ∧ e.token = z := by
  have htoken := token_of_firstBreak hts hz h
  by_cases hi : i < ts.length
  · rw [List.getElem?_append_left hi] at htoken
    exact .inl ⟨hi, List.mem_of_getElem? htoken⟩
  · obtain ⟨hle, -⟩ := List.getElem?_eq_some_iff.mp htoken
    rw [List.length_append, List.length_singleton] at hle
    obtain rfl : i = ts.length := by omega
    rw [List.getElem?_concat_length] at htoken
    exact .inr ⟨rfl, (Option.some.inj htoken).symm⟩

/-- The first break is noted behind errors about the targets of assignments only. If it is at the
end, then no error follows it. -/
theorem errors_of_firstBreak (hts : ∀ t ∈ ts, Cursor.isProper t = true)
    (hz : Cursor.isProper z = false) (h : firstBreak room (ts ++ [z]) = some (e, i)) :
    ∃ es fs, (ofTokens room (ts ++ [z])).errors = es ++ e :: fs ∧ (i = ts.length → fs = []) ∧
      ∀ f ∈ es, f.cause = .invalidTarget ∧ f.token.kind = .equal := by
  obtain ⟨s₁, hbreak, rfl⟩ := exists_of_firstBreak h
  obtain ⟨us, es', hleads⟩ := Parse.leads_firstBreak hbreak
  obtain ⟨hposition, hrest, -⟩ := leads_ofTokens hts hz hleads
  obtain ⟨es, hes, htargets⟩ := Parse.notesTargets_firstBreak hbreak
  have herrors : (ofTokens room (ts ++ [z])).errors =
      (Parse.program room (s₁.recover e)).2.noted :=
    congrArg ParseState.noted (Parse.program_of_firstBreak hbreak)
  have hnoted : (s₁.recover e).noted = es ++ [e] := by
    rw [noted_recover, hes]
    rfl
  obtain ⟨fs, hfs⟩ := Parse.noted_programOf (Parse.composed_declaration room).frames
    (s₁.recover e).cursor.rest.length (s₁.recover e)
  rw [hnoted] at hfs
  refine ⟨es, fs, ?_, fun hi => ?_, htargets⟩
  · rw [herrors, Parse.program, ← hfs, List.append_assoc]
    rfl
  · have hlength := congrArg List.length hrest
    rw [List.length_append, ← hposition, hi] at hlength
    have hrecover := length_recover s₁ e
    have hend : (s₁.recover e).cursor.rest = [] := List.length_eq_zero_iff.mp (by omega)
    rw [hend, Parse.programOf_of_end hend, hnoted] at hfs
    simpa using hfs

/-- Where no declaration is dropped, all errors are about the targets of assignments. -/
theorem targets_of_kept (h : (ofTokens room ts).panicked = false) :
    ∀ f ∈ (ofTokens room ts).errors, f.cause = .invalidTarget ∧ f.token.kind = .equal := by
  obtain ⟨es, hes, htargets⟩ := Parse.notesTargets_program h
  have herrors : (ofTokens room ts).errors = es := hes
  rwa [herrors]

/-- A declaration is dropped exactly if there is an error about anything else than the target of an
assignment. -/
theorem panicked_iff (hts : ∀ t ∈ ts, Cursor.isProper t = true) (hz : Cursor.isProper z = false) :
    (ofTokens room (ts ++ [z])).panicked = true ↔
      ∃ f ∈ (ofTokens room (ts ++ [z])).errors, f.cause ≠ .invalidTarget := by
  constructor
  · intro h
    obtain ⟨e, i, hbreak⟩ := exists_firstBreak h
    obtain ⟨es, fs, herrors, -⟩ := errors_of_firstBreak hts hz hbreak
    exact ⟨e, by simp [herrors], cause_of_firstBreak hbreak⟩
  · rintro ⟨f, hf, hcause⟩
    by_contra hkept
    exact hcause (targets_of_kept ((Bool.not_eq_true _).mp hkept) f hf).1

/-- The tokens in front of the one that is blamed can be completed. -/
theorem completion_of_firstBreak (hts : ∀ t ∈ ts, Cursor.isProper t = true)
    (hz : Cursor.isProper z = false) (h : firstBreak room (ts ++ [z]) = some (e, i))
    (he : e.cause ≠ .tooDeep) {room' : Nat} (hroom : room + 3 ≤ room') (line : Int) :
    ∃ fs, ∀ y, Cursor.isProper y = false →
      (ofTokens room' (ts.take i ++ Filler.tokens line fs ++ [y])).panicked = false := by
  obtain ⟨s₁, hbreak, rfl⟩ := exists_of_firstBreak h
  obtain ⟨us, es, fs, hleads, hcompletion⟩ := Parse.exists_completion hbreak hroom he line
  obtain ⟨hposition, hrest, -⟩ := leads_ofTokens hts hz hleads
  refine ⟨fs, fun y hy => ?_⟩
  have htake : ts.take s₁.cursor.position = us := by
    rw [hposition, hrest, List.take_left]
  have hus : ∀ t ∈ us, Cursor.isProper t = true := by
    intro t ht
    exact hts t (by rw [hrest]; exact List.mem_append_left _ ht)
  rw [htake, panicked_closed (Cursor.isProper_append hus (Filler.isProper_tokens line fs)) hy]
  exact hcompletion _ rfl

/-- Together with the token that is blamed they cannot. -/
theorem panicked_of_firstBreak (hts : ∀ t ∈ ts, Cursor.isProper t = true)
    (hz : Cursor.isProper z = false) (h : firstBreak room (ts ++ [z]) = some (e, i))
    (he : e.cause ≠ .tooDeep) (hi : i < ts.length) (hus : ∀ t ∈ us, Cursor.isProper t = true)
    (hy : Cursor.isProper y = false) (room' : Nat) :
    (ofTokens room' (ts.take (i + 1) ++ us ++ [y])).panicked = true := by
  obtain ⟨s₁, hbreak, rfl⟩ := exists_of_firstBreak h
  obtain ⟨vs, es, hleads⟩ := Parse.leads_firstBreak hbreak
  obtain ⟨hposition, hrest, -⟩ := leads_ofTokens hts hz hleads
  obtain ⟨u, ws, hu⟩ : ∃ u ws, s₁.cursor.rest = u :: ws := by
    refine List.exists_cons_of_ne_nil fun hnil => ?_
    rw [hposition, hrest, hnil, List.append_nil] at hi
    exact Nat.lt_irrefl _ hi
  have htake : ts.take (s₁.cursor.position + 1) = vs ++ [u] := by
    rw [hposition, hrest, hu, List.take_length_add_append]
    rfl
  have htaken : ∀ t ∈ vs ++ [u], Cursor.isProper t = true := by
    intro t ht
    exact hts t (List.mem_of_mem_take (htake ▸ ht))
  rw [htake, panicked_closed (Cursor.isProper_append htaken hus) hy]
  by_contra hkept
  -- with more room, the two rooms can be compared
  have hroom : room + 3 ≤ max room room' + 3 := by omega
  have hroom' : room' + 3 ≤ max room room' + 3 := by omega
  have hmore := Parse.kept_of_room hroom' ((Bool.not_eq_true _).mp hkept)
  obtain ⟨vs', es', hleads', hblamed⟩ := Parse.panicked_of_blamed hbreak hroom he hu
  obtain ⟨rfl, -⟩ := hleads.unique hleads'
  rw [hblamed _ us (by simp)] at hmore
  cases hmore

/-- The first error that breaks off a declaration blames the earliest token that makes the program
impossible to complete. It is the first error at all, apart from those about the targets of
assignments; the tokens in front of the one that it blames are the beginning of a program of which no
declaration is dropped, if three more levels of nesting are admitted; and if it does not blame the
end, the blamed token included they are not, whatever is admitted. -/
theorem blames_earliest_token (hts : ∀ t ∈ ts, Cursor.isProper t = true)
    (hz : Cursor.isProper z = false) (h : firstBreak room (ts ++ [z]) = some (e, i))
    (he : e.cause ≠ .tooDeep) :
    (ofTokens room (ts ++ [z])).errors.find? (·.cause ≠ .invalidTarget) = some e ∧
      (ts ++ [z])[i]? = some e.token ∧
      (∀ room', room + 3 ≤ room' → ∃ us, (∀ t ∈ us, Cursor.isProper t = true) ∧
        ∀ y, Cursor.isProper y = false →
          (ofTokens room' (ts.take i ++ us ++ [y])).panicked = false) ∧
      (i < ts.length → ∀ us, (∀ t ∈ us, Cursor.isProper t = true) → ∀ y,
        Cursor.isProper y = false → ∀ room',
          (ofTokens room' (ts.take (i + 1) ++ us ++ [y])).panicked = true) := by
  refine ⟨?_, token_of_firstBreak hts hz h, fun room' hroom => ?_, fun hi us hus y hy room' => ?_⟩
  · obtain ⟨es, fs, herrors, -, htargets⟩ := errors_of_firstBreak hts hz h
    have hcause : e.cause ≠ .invalidTarget := by
      obtain ⟨s₁, hbreak, -⟩ := exists_of_firstBreak h
      exact Parse.cause_firstBreak hbreak he
    have hnone : es.find? (·.cause ≠ .invalidTarget) = none := by
      refine List.find?_eq_none.mpr fun f hf => ?_
      simp [(htargets f hf).1]
    rw [herrors, List.find?_append, hnone, Option.none_or, List.find?_cons_of_pos (by simpa)]
  · obtain ⟨fs, hfs⟩ := completion_of_firstBreak hts hz h he hroom 1
    exact ⟨_, Filler.isProper_tokens 1 fs, hfs⟩
  · exact panicked_of_firstBreak hts hz h he hi hus hy room'

end

/-- The tokens of `nil = nil; { print (nil; }`. -/
def openParenthesis : List Token :=
  [⟨.nilWord, "nil", .nil, 1⟩, ⟨.equal, "=", .nil, 1⟩, ⟨.nilWord, "nil", .nil, 1⟩,
   ⟨.semicolon, ";", .nil, 1⟩, ⟨.leftBrace, "\x7b", .nil, 1⟩, ⟨.printWord, "print", .nil, 1⟩,
   ⟨.leftParen, "(", .nil, 1⟩, ⟨.nilWord, "nil", .nil, 1⟩, ⟨.semicolon, ";", .nil, 1⟩,
   ⟨.rightBrace, "\x7d", .nil, 1⟩]

/-- It is the second semicolon that is blamed, neither the assignment nor the end. -/
theorem blames_semicolon :
    firstBreak 40 (openParenthesis ++ [Token.endAt 1]) =
        some (⟨⟨.semicolon, ";", .nil, 1⟩, .expectRightParen .expression⟩, 8) ∧
      (∃ us, (ofTokens 43 (openParenthesis.take 8 ++ us ++ [Token.endAt 1])).panicked = false) ∧
      ∀ us, (∀ t ∈ us, Cursor.isProper t = true) →
        (ofTokens 43 (openParenthesis.take 9 ++ us ++ [Token.endAt 1])).panicked = true := by
  have hbreak : firstBreak 40 (openParenthesis ++ [Token.endAt 1]) =
      some (⟨⟨.semicolon, ";", .nil, 1⟩, .expectRightParen .expression⟩, 8) := by decide
  obtain ⟨-, -, hcompletion, hblamed⟩ := blames_earliest_token (by decide) rfl hbreak nofun
  obtain ⟨us, -, hus⟩ := hcompletion 43 (Nat.le_refl _)
  exact ⟨hbreak, ⟨us, hus _ rfl⟩, fun us hproper => hblamed (by decide) us hproper _ rfl 43⟩

end Program

end LoxScript
