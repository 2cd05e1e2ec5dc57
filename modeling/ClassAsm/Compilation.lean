import ClassAsm.Source.Lexed
import ClassAsm.Grammar.Items
import ClassAsm.Program
import ClassAsm.Assembly

/-! From a source text to its assembly text. The directives of the source change the options before
anything else happens, also if the compilation fails later. -/

namespace ClassAsm

structure Compilation where
  assembly : String
  tokens : List Token
  hasMain : Bool

namespace Compilation

/-- Compiles a source; gives the options as its directives leave them, and the outcome. -/
def ofSource (source : List Char) (options : Options) : Options × Outcome Compilation :=
  let lexed := Lexed.ofSource source
  let options := options.applyAll lexed.directives
  let outcome : Outcome Compilation :=
    match lexed.tokens with
    | .error f => ⟨[], .error f⟩
    | .ok tokens =>
      match Item.ofTokens tokens with
      | .error f => ⟨[], .error f⟩
      | .ok items =>
        let built := Program.ofItems options items
        ⟨built.warnings, built.result.map fun p =>
          ⟨Assembly.text p.registry options.assemblyName, tokens, p.hasMain⟩⟩
  (options, outcome)

end Compilation
end ClassAsm
