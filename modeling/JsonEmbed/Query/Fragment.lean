import JsonEmbed.Query.Fragment.Evaluation
import JsonEmbed.Query.Fragment.Parser
import JsonEmbed.Query.Fragment.Scope

/-!
# The interpreter of a fragment

The interpreter with which the program runs. It knows a fragment of the language: the constructs of
`Term` and the functions of `Builtin.all`. Queries outside of the fragment, with definitions,
updates, recursive descent, formats or most functions of the library, are rejected, though a full
interpreter accepts them. No result depends on this: those about queries hold for every interpreter,
and the fragment is only what they are tried on.
-/

namespace JsonEmbed

namespace Query

instance fragment : Interpreter where
  compile text :=
    match Term.parse? text with
    | none => .error .malformed
    | some t =>
      match t.unknown [] with
      | [] => .ok fun input ↦
        ((t.eval [] [] (.ofJson input)).map Value.text).mapError fun _ ↦ ()
      | names => .error (.unknown names)

end Query

end JsonEmbed
