import Mathlib.Data.List.Chain
import LoxScript.Proofs.Grammar.Acceptance

/-!
# The targets of assignments

In a program without errors every equals sign directly follows a name (`Declarations.targeted`): it
is part of an assignment or of a declaration, and both have a name on the left. So an equals sign
behind any other token cannot be made up for by what follows (`Program.errors_of_nameless`), although
it breaks nothing off and is noted only after the value has been read.
-/

namespace LoxScript

/-- Every equals sign directly follows a name, and none comes first. -/
structure Targeted (ts : List Token) : Prop where
  named : ts.IsChain fun u v => v.kind = .equal → u.kind = .identifier
  start : ∀ t, ts.head? = some t → t.kind ≠ .equal

namespace Targeted

variable {ts us : List Token} {t name sign : Token}

theorem nil : Targeted [] := ⟨.nil, nofun⟩

/-- Signs in two lists in a row have the targets that they have in each. -/
theorem append (hts : Targeted ts) (hus : Targeted us) : Targeted (ts ++ us) where
  named := List.isChain_append.mpr
    ⟨hts.named, hus.named, fun u _ v hv hk => absurd hk (hus.start v hv)⟩
  start := by
    intro t ht
    cases ts with
    | nil => exact hus.start t ht
    | cons u ts => exact hts.start t ht

theorem single (ht : t.kind ≠ .equal) : Targeted [t] where
  named := .singleton t
  start := by
    intro u hu
    cases hu
    exact ht

theorem cons (ht : t.kind ≠ .equal) (hts : Targeted ts) : Targeted (t :: ts) :=
  (single ht).append hts

/-- The one place for an equals sign. -/
theorem assigned (hn : name.kind = .identifier) (hts : Targeted ts) :
    Targeted (name :: sign :: ts) where
  named := by
    refine .cons_cons (fun _ => hn) (List.isChain_cons.mpr ⟨fun v hv hk => ?_, hts.named⟩)
    exact absurd hk (hts.start v hv)
  start := by
    intro t ht
    cases ht
    simp [hn]

end Targeted

/-- In an expression, each sign of an assignment stands behind a name. -/
theorem Phrase.targeted {k : Nat} {ts : List Token} {e : Expr} (h : Phrase k ts e) :
    Targeted ts := by
  induction h with
  | tighter _ ih => exact ih
  | assignment hn _ _ ih => exact .assigned hn ih
  | operation ht _ _ ihl ihr =>
    refine ihl.append (.cons (fun hk => ?_) ihr)
    rw [hk] at ht
    cases ht
  | negation ho _ ih =>
    refine .cons (fun hk => ?_) ih
    simp [hk] at ho
  | atom h =>
    refine .single fun hk => ?_
    simp [Expr.ofToken?, hk] at h
  | parentheses hl _ hr ih =>
    exact (Targeted.cons (by simp [hl]) ih).append (.single (by simp [hr]))

theorem OptionalPhrase.targeted {ts : List Token} {o : Option Expr} (h : OptionalPhrase ts o) :
    Targeted ts := by
  cases h with
  | absent => exact .nil
  | present h => exact h.targeted

theorem VariableClause.targeted {ts : List Token} {s : Stmt} (h : VariableClause ts s) :
    Targeted ts := by
  cases h with
  | bare hn hs => exact .cons (by simp [hn]) (.single (by simp [hs]))
  | initialized hn _ he hs =>
    exact (Targeted.assigned hn he.targeted).append (.single (by simp [hs]))

theorem ExpressionClause.targeted {ts : List Token} {s : Stmt} (h : ExpressionClause ts s) :
    Targeted ts := by
  obtain ⟨he, hs⟩ := h
  exact he.targeted.append (.single (by simp [hs]))

theorem FirstClause.targeted {ts : List Token} {o : Option Stmt} (h : FirstClause ts o) :
    Targeted ts := by
  cases h with
  | absent hs => exact .single (by simp [hs])
  | variableDeclaration hw h => exact .cons (by simp [hw]) h.targeted
  | expression h => exact h.targeted

/-- In a program every equals sign directly follows a name. -/
theorem Declarations.targeted {ts : List Token} {ss : List Stmt} (h : Declarations ts ss) :
    Targeted ts := by
  refine @Declarations.rec (fun _ ts _ _ => Targeted ts) (fun ts _ _ => Targeted ts)
    (fun ts _ _ => Targeted ts) ?expression ?print ?block ?ifThen ?ifElse ?whileLoop ?forLoop
    ?variableDeclaration ?statement ?nil ?cons ts ss h
  case expression => exact fun h => h.targeted
  case print =>
    intro _ _ _ _ hw he hs
    exact (Targeted.cons (by simp [hw]) he.targeted).append (.single (by simp [hs]))
  case block =>
    intro _ _ _ _ hl _ hr ih
    exact (Targeted.cons (by simp [hl]) ih).append (.single (by simp [hr]))
  case ifThen | whileLoop =>
    intro _ _ _ _ _ _ _ _ hw hl hc hr _ ih
    exact (Targeted.cons (by simp [hw]) (.cons (by simp [hl]) hc.targeted)).append
      (.cons (by simp [hr]) ih)
  case ifElse =>
    intro _ _ _ _ _ _ _ _ _ _ _ hw hl hc hr _ ho _ ih ih'
    exact (Targeted.cons (by simp [hw]) (.cons (by simp [hl]) hc.targeted)).append
      (.cons (by simp [hr]) (ih.append (.cons (by simp [ho]) ih')))
  case forLoop =>
    intro _ _ _ _ _ _ _ _ _ _ _ _ _ hw hl hi hc hm hn hr _ ih
    exact (Targeted.cons (by simp [hw]) (.cons (by simp [hl]) hi.targeted)).append
      (hc.targeted.append (.cons (by simp [hm]) (hn.targeted.append (.cons (by simp [hr]) ih))))
  case variableDeclaration => exact fun hw h => .cons (by simp [hw]) h.targeted
  case statement => exact fun _ ih => ih
  case nil => exact .nil
  case cons => exact fun _ _ ih ih' => ih.append ih'

/-- If an equals sign follows a token that is no name, then there is an error, whatever follows. -/
theorem Program.errors_of_nameless {room : Nat} {us vs : List Token} {u sign : Token}
    (hproper : ∀ t ∈ us ++ [u], Cursor.isProper t = true) (hu : u.kind ≠ .identifier)
    (hs : sign.kind = .equal) : (ofTokens room (us ++ u :: sign :: vs)).errors ≠ [] := by
  intro herrors
  have hderived := Parse.derives_programOf (Nat.le_refl _) herrors
  have hread : (ParseState.ofTokens (us ++ u :: sign :: vs)).cursor.rest =
      us ++ u :: sign :: vs.takeWhile Cursor.isProper := by
    rw [rest_ofTokens, List.append_cons, List.takeWhile_append_of_pos hproper, List.append_assoc]
    simp [Cursor.isProper, hs]
  rw [hread] at hderived
  have hchain := (List.isChain_append.mp hderived.targeted.named).2.1
  exact hu ((List.isChain_cons_cons.mp hchain).1 hs)

end LoxScript
