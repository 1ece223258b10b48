/-!
# Values of string literals

A literal written between double quotes stands for its inner text, in which a backslash hides its
special meaning from a quote or a backslash behind it. Every other literal stands for itself.
-/

namespace ActorLang.Quoted

/-- Resolves the pairs backslash-quote and backslash-backslash; any other backslash stays. -/
def unescape : List Char → List Char
  | '\\' :: '"' :: rest => '"' :: unescape rest
  | '\\' :: '\\' :: rest => '\\' :: unescape rest
  | '\\' :: c :: rest => '\\' :: c :: unescape rest
  | c :: rest => c :: unescape rest
  | [] => []

/-- The text between an opening and a different closing double quote. -/
def inner? : List Char → Option (List Char)
  | '"' :: rest => if rest.getLast? = some '"' then some rest.dropLast else none
  | _ => none

def value (raw : String) : String :=
  match inner? raw.toList with
  | some text => String.ofList (unescape text)
  | none => raw

end ActorLang.Quoted
