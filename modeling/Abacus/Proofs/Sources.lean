import Abacus.Proofs.Covering
import Abacus.Proofs.Recognition

/-!
From a source to its tree and back. A source has a tree if and only if it is cut into tokens that
make up a sentence; the end of the input comes after these tokens and is none of them. Two texts
can be put side by side if the second begins with a character that no lexeme goes on through.
-/
namespace Abacus

namespace Token

variable {offset : Nat} {text more : List Char} {lexemes lexemes' : List Token}

def Separates (c : Char) : Prop := ∀ kind, ¬ Extends kind c

theorem separates_of_symbol {kind : TokenKind} {c : Char} (h : kind.symbol? = some c) :
    Separates c := by
  have hname : isNameChar c = false := by cases kind <;> cases h <;> rfl
  have hnumeral : isNumeralChar c = false := (symbol_begins h).2.1
  intro kind' hextends
  cases hextends with
  | identifier hc => simp [extends_identifier_iff.mp (.identifier hc)] at hname
  | number hc => simp [extends_number_iff.mp (.number hc)] at hnumeral

/-- A text in front of one that it cannot run into keeps its tokens. -/
theorem Cut.append (h : Cut offset text lexemes) (hmore : Cut (offset + text.length) more lexemes')
    (hends : ∀ c ∈ more.head?, Separates c) :
    Cut offset (text ++ more) (lexemes ++ lexemes') := by
  induction h with
  | nil offset => exact hmore
  | @blank offset c rest lexemes hc h ih =>
    have hlength : offset + (c :: rest).length = offset + 1 + rest.length := by
      rw [List.length_cons]
      omega
    rw [hlength] at hmore
    exact .blank hc (ih hmore)
  | @lexeme offset kind payload lexeme rest lexemes hspells hstops h ih =>
    rw [List.length_append, ← Nat.add_assoc] at hmore
    rw [List.append_assoc]
    refine .lexeme hspells ?_ (ih hmore)
    intro c hc
    cases rest with
    | nil => exact hends c hc kind
    | cons first rest => exact hstops c hc

/-- A lexeme by itself is one token. -/
theorem Spells.cut {kind : TokenKind} {payload : Payload} (h : Spells kind payload text)
    (offset : Nat) : Cut offset text [⟨kind, payload, ⟨offset, offset + text.length⟩⟩] := by
  have hcut : Cut offset (text ++ []) [⟨kind, payload, ⟨offset, offset + text.length⟩⟩] :=
    .lexeme h (by simp) (.nil (offset + text.length))
  rwa [List.append_nil] at hcut

theorem spells_letter {c : Char} (h : c.isAlpha) :
    Spells .identifier (.text (String.ofList [c])) [c] :=
  .identifier (Or.inl h) (by simp)

/-- An operator or parenthesis in front of a text is a token of its own. -/
theorem Cut.symbol {kind : TokenKind} {c : Char} (hc : kind.symbol? = some c)
    (h : Cut (offset + 1) text lexemes) :
    Cut offset (c :: text)
      (⟨kind, .text (String.ofList [c]), ⟨offset, offset + 1⟩⟩ :: lexemes) :=
  .lexeme (.symbol hc) (fun _ _ => not_extends_symbol hc) h

theorem Cut.kind_ne_eof (h : Cut offset text lexemes) : ∀ token ∈ lexemes, token.kind ≠ .eof := by
  induction h with
  | nil => simp
  | blank hc h ih => exact ih
  | lexeme hspells hends h ih =>
    simp only [List.forall_mem_cons]
    exact ⟨hspells.kind_ne_eof, ih⟩

/-- The tokens before the end of the input are those of the cut. -/
theorem Cut.takeWhile_eq (h : Cut offset text lexemes) (stop : Nat) :
    (lexemes ++ [endOfInput stop]).takeWhile (·.kind != .eof) = lexemes := by
  have hall : ∀ token ∈ lexemes, token.kind != .eof := by simpa using h.kind_ne_eof
  rw [List.takeWhile_append_of_pos hall]
  simp [endOfInput]

end Token

open Token Grammar

variable {source : List Char} {tokens lexemes : List Token} {tree : Expr}

/-- The tokens of a source that has a tree are a cut of it and spell the tree. -/
theorem exists_cut_of_parse (hscan : scan source = .ok tokens)
    (hparse : Expr.parse tokens = .ok tree) :
    ∃ lexemes, tokens = lexemes ++ [endOfInput source.length] ∧ Cut 0 source lexemes ∧
      Sentence lexemes tree := by
  obtain ⟨lexemes, htokens, hcut⟩ := cut_of_scanFrom hscan
  rw [Nat.zero_add] at htokens
  have hsentence : Sentence (tokens.takeWhile (·.kind != .eof)) tree :=
    Expr.sentence_of_read (Expr.parse_eq_ok.mp hparse)
  rw [htokens, hcut.takeWhile_eq] at hsentence
  exact ⟨lexemes, htokens, hcut, hsentence⟩

/-- A source that is cut into the tokens of a sentence has the tree that they spell. -/
theorem parse_of_cut (hcut : Cut 0 source lexemes) (h : Sentence lexemes tree) :
    scan source = .ok (lexemes ++ [endOfInput source.length]) ∧
      Expr.parse (lexemes ++ [endOfInput source.length]) = .ok tree := by
  have hscan := scanFrom_of_cut hcut
  rw [Nat.zero_add] at hscan
  refine ⟨hscan, Expr.parse_eq_ok.mpr (Expr.read_sentence ?_)⟩
  change Sentence ((lexemes ++ [endOfInput source.length]).takeWhile (·.kind != .eof)) tree
  rwa [hcut.takeWhile_eq]

end Abacus
