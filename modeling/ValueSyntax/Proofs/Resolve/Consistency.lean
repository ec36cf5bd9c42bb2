import ValueSyntax.Proofs.Resolve.Blame
import ValueSyntax.Proofs.Resolve.Closure

namespace ValueSyntax

/-- The request works on texts and names. If it hands over a tree, the parser has built it. -/
def Request.OnText : Request → Prop
  | tree t _ => ∃ text, Tree.ofText text = .ok t
  | _ => True

def Fault.Refuses (text : String) (fault : Fault) : Prop :=
  Token.scan text = .error fault ∨
    ∃ tokens, Token.scan text = .ok tokens ∧ Tree.ofTokens tokens = .error fault

/-- Resolving the tree comes to a connective without operands, in the tree itself or in the
definition of a property that is expanded in it. -/
inductive Catalog.Meets (k : Catalog) : Tree → Connective → Prop
  | own {t : Tree} {c : Connective} (h : t.Lacks k c) : Meets k t c
  | expanded {t u : Tree} {name : String} {c : Connective} (hn : t.Expands k name)
      (hu : k.tree? name = some u) (h : Meets k u c) : Meets k t c

theorem Fault.Refuses.of_ofText {text : String} {fault : Fault}
    (h : Tree.ofText text = .error fault) : fault.Refuses text := by
  unfold Tree.ofText at h
  split at h
  · next hscan =>
    cases h
    exact Or.inl hscan
  · next tokens hscan => exact Or.inr ⟨tokens, hscan, h⟩

theorem Source.syntactic_of_error {source : Source} {e : Failure} (h : source.tree = .error e) :
    e.cause.isSyntactic ∧ e.toFault.Refuses e.source.text := by
  obtain ⟨rfl, hread⟩ := Source.tree_eq_error_iff.mp h
  exact ⟨(Tree.fault_of_ofText hread).2, .of_ofText hread⟩

theorem Tree.Proper.not_lacks {k : Catalog} {t : Tree} {c : Connective} (h : t.Proper) :
    ¬ t.Lacks k c := by
  have hsupplied : t.Supplied k := h.supplied
  exact hsupplied.not_lacks

theorem Tree.Proper.not_meets {k : Catalog} {t : Tree} {c : Connective} (h : t.Proper) :
    ¬ k.Meets t c := by
  intro hmeets
  induction hmeets with
  | own hlacks => exact h.not_lacks hlacks
  | expanded _ hu _ ih => exact ih (Catalog.proper_of_tree? hu)

/-- Text never leads to an inconsistency: after any history, a request on texts fails only with
what the lexer or the parser says of the text that is quoted. And a tree of a text, resolved through
all that it expands, comes to no connective without operands. -/
theorem text_is_consistent (k : Catalog) :
    (∀ history (r : Request) e s, r.OnText → r.perform k (k.sessionAfter history) = .error e s →
      e.cause.isSyntactic ∧ e.toFault.Refuses e.source.text) ∧
    ∀ text t c, Tree.ofText text = .ok t → ¬ k.Meets t c := by
  refine ⟨fun history r e s htext h => ?_, fun _ _ _ h => (Tree.Proper.of_text h).not_meets⟩
  have hbooked := (Session.Booked.upheld k).sessionAfter .start history
  have hperform := (Session.Booked.upheld k).perform r fun _ => .start
  have hfault : r.Fault k e := ((hperform _ hbooked).of_error h).2
  -- Either some text was refused, or the tree of the request itself lacks operands.
  rcases hfault.read_or_lacks with ⟨hread, -⟩ | ⟨t, referrer, c, rfl, hlacks, -⟩
  · exact Source.syntactic_of_error hread
  · obtain ⟨text, ht⟩ := htext
    exact absurd hlacks (Tree.Proper.of_text ht).not_lacks

/-- A function without arguments, whose tree has no operands, beside a property that does not close
its bracket. -/
def unclosed : Catalog where
  dataTypes := .ofList []
  properties := .ofList [("p", "f() | [ <'q'> && <'p'> ]!"), ("q", "[ f() ||")]

def callBesideUnclosed : Tree :=
  .joined .allRequired [.function "f" .noArguments, .reference "p" none true]

theorem text_is_consistent_on_unclosed :
    Tree.ofText "f() && <'p'>" = .ok callBesideUnclosed ∧
    (Request.tree callBesideUnclosed "w").OnText ∧
    (∃ e s, (Request.tree callBesideUnclosed "w").perform unclosed
        (unclosed.sessionAfter [.property "q"]) = .error e s ∧
      e.cause.isSyntactic ∧ e.toFault.Refuses e.source.text) ∧
    ¬ unclosed.Meets callBesideUnclosed .anyOrder := by
  have hread : Tree.ofText "f() && <'p'>" = .ok callBesideUnclosed := by decide +kernel
  have htext : (Request.tree callBesideUnclosed "w").OnText := ⟨_, hread⟩
  have hperform : Fails ((Request.tree callBesideUnclosed "w").perform unclosed)
      (unclosed.sessionAfter [.property "q"]) := by decide +kernel
  obtain ⟨e, s, h⟩ := hperform
  obtain ⟨hasking, hmeets⟩ := text_is_consistent unclosed
  exact ⟨hread, htext, ⟨e, s, h, hasking _ _ _ _ htext h⟩, hmeets _ _ _ hread⟩

end ValueSyntax
