import StyledText.OrderedMap.Basic
import StyledText.Chars.Quoted

/-!
# Attachments

An attachment stands for something drawn in the line of a text, such as an image. Only its name
is known here; the payload is carried along for the host.
-/

namespace StyledText

inductive Attachment.Content where
  | number (n : Nat)
  | text (s : String)
deriving DecidableEq, Repr, Inhabited

/-- A payload a host has handed over. Two payloads with the same content are still different
when the host handed them over separately; `identity` tells them apart. -/
structure Attachment.Payload where
  identity : Nat
  content : Attachment.Content
deriving DecidableEq, Repr, Inhabited

/-- An inline attachment. Two are equal when they have one name and one payload, or none. -/
structure Attachment where
  name : String
  payload : Option Attachment.Payload := none
deriving DecidableEq, Repr, Inhabited

/-- Attachments by the destination of the image that shows them. -/
abbrev Attachments := OrderedMap String Attachment

namespace Attachment

def number? (a : Attachment) : Option Nat :=
  match a.payload with
  | some ⟨_, .number n⟩ => some n
  | _ => none

def text? (a : Attachment) : Option String :=
  match a.payload with
  | some ⟨_, .text s⟩ => some s
  | _ => none

/-- A description for messages: the name, and whether there is a payload. -/
def describe (shows : Char → Bool) (a : Attachment) : String :=
  "Attachment \x7b name: " ++ Chars.quoted shows a.name ++ ", has_payload: " ++
    (if a.payload.isSome then "true" else "false") ++ " \x7d"

end Attachment

end StyledText
