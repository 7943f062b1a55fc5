import FileStash.Failure
import FileStash.Text.Split

namespace FileStash.Connection

def schemeEnd : List Char := "://".toList

def hidden : String := "***"

/-- An address as messages may show it. All between the scheme and the last at
sign is hidden; an address without scheme is hidden as a whole. -/
def redact (address : String) : Except Failure String :=
  let cs := address.toList
  if !cs.contains '@' then .ok address
  else
    match Text.cutAt schemeEnd cs with
    | none => .ok hidden
    | some (scheme, rest) =>
        match Text.afterLast '@' rest with
        | none => .error .noElement
        | some place =>
            .ok (String.ofList scheme ++ "://" ++ hidden ++ "@" ++ String.ofList place)

end FileStash.Connection
