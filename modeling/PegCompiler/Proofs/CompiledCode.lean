/-
The code that is compiled after the search for match results, and how it ends. Wherever the code of an expression may
stand, what it leaves on the stack is the value that the expression comes to by its meaning; so what is known of
meanings is known of all its runs.
-/
import PegCompiler.Proofs.MatchResults

namespace PegCompiler

open Machine

/-! ## Runs of the code of an expression -/

/-- Code that is run on a stack may finish with a value on top of it. -/
def Machine.Finishes (p : Program Raw) (code : Code Raw) (stack : Stack) (st : ParseState) (v : Value)
    (st' : ParseState) : Prop :=
  ∃ fuel, block p fuel code stack st = .ok (.value v :: stack) st'

/-- The program of a parser for the code of an expression, with the pools that it needs. -/
def Compilation.programWith (c : Compilation) (bs : Bindings) (k : Constants) : Program Raw :=
  Parser.program { c.parserWith bs with constants := k }

namespace Compilation

variable {c : Compilation} {bs : Bindings} {e : Expr} {env : Env} {ls : Labels} {stack stack' : Stack} {code : Code Raw}
  {k : Constants} {st st' : ParseState} {v : Value}

/-- The code of an expression finishes with what the expression means. -/
theorem Coded.finishes_iff (h : c.Coded) (hcode : c.exprCode e env stack.length = .ok (code, k))
    (henv : env.Holds ls stack) : Finishes (c.programWith bs k) code stack st v st' ↔
      ∃ cs, (c.setting bs).meaning (RuleRuns (c.inlineProgram bs)) e ls st cs v st' := by
  refine Iff.trans block_ok_iff ⟨?_, ?_⟩
  · rintro ⟨cs, hx⟩
    obtain ⟨cs', v', -, hstack, hv⟩ := (h.exec_exprCode hcode henv).1 hx
    cases hstack
    exact ⟨cs', hv⟩
  · rintro ⟨cs, hv⟩
    exact ⟨_, (h.exec_exprCode hcode henv).2 ⟨cs, v, rfl, rfl, hv⟩⟩

/-- It finishes in no other way. -/
theorem Coded.finishes_of_ok (h : c.Coded) (hcode : c.exprCode e env stack.length = .ok (code, k))
    (henv : env.Holds ls stack) {fuel : Nat} (hrun : block (c.programWith bs k) fuel code stack st = .ok stack' st') :
    ∃ v, stack' = .value v :: stack ∧ Finishes (c.programWith bs k) code stack st v st' := by
  obtain ⟨cs, hx⟩ := block_ok_iff.1 ⟨fuel, hrun⟩
  obtain ⟨-, v, -, rfl, -⟩ := (h.exec_exprCode hcode henv).1 hx
  exact ⟨v, rfl, fuel, hrun⟩

end Compilation

/-! ## From drafts -/

/-- A compilation whose rules have their code, made of a grammar with the match results of what it became. -/
structure Compilation.MadeOf (g : Grammar) (c : Compilation) : Prop where
  bypasses : g.Bypasses c.grammar
  coded : c.Coded
  complete : Analysis.Matching.Complete c.grammar c.found

/-- Where references stand for rules, match results are found after whatever other passes, and code is made with them. -/
theorem Grammar.Built.compiled_after_matching {g : Grammar} (hg : g.Built) (hrefs : Analysis.undefinedRules g = [])
    (o : CompileOptions) (before : List Pass) (hbefore : ∀ p ∈ before, p ≠ .matching ∧ p ≠ .bytecode ∧ p ≠ .source) :
    ∃ s, (before ++ [Pass.matching]).forM Pass.run ⟨.start g o, []⟩ = .ok ⟨⟩ s ∧
      ∀ s', Pass.bytecode.run s = .ok ⟨⟩ s' → s'.compilation.MadeOf g := by
  obtain ⟨s₀, h₀, prepared⟩ := (Session.Prepared.start g o).passes before hbefore
  obtain ⟨found, h₁, complete⟩ := prepared.matching hg.numbered (hg.resolved hrefs)
  refine ⟨s₀.withFound found, ?_, fun s' h' => ?_⟩
  · exact forM_append_ok_iff.2 ⟨s₀, h₀, bind_ok_iff.2 ⟨⟨⟩, _, h₁, rfl⟩⟩
  · have hlen : s₀.compilation.bytecode.length = s₀.compilation.grammar.rules.length :=
      prepared.bytecode.trans prepared.bypasses.length.symm
    obtain ⟨coded, k, code, rfl⟩ := Working.compileRules_ok (s := s₀.withFound found) hlen h'
    exact ⟨prepared.bypasses, coded, complete⟩

end PegCompiler
