import FileStash.Base64
import FileStash.Client.Error
import FileStash.Text.Quoted

/-!
What can go wrong, as causes. A `Failure` is what a conversion, the operating
system or the client of the server reports; a `StoreError` is what an operation
of the library answers with, which may carry the failure behind it. The wording
of both is here and nowhere else.
-/

namespace FileStash

inductive SystemCode
  | noEntry
  | accessDenied
  | exists
  | notDirectory
  | isDirectory
  | nameTooLong
  | linkLoop
deriving DecidableEq, Repr

def SystemCode.number : SystemCode → Nat
  | .noEntry => 2
  | .accessDenied => 13
  | .exists => 17
  | .notDirectory => 20
  | .isDirectory => 21
  | .nameTooLong => 36
  | .linkLoop => 40

def SystemCode.text : SystemCode → String
  | .noEntry => "No such file or directory"
  | .accessDenied => "Permission denied"
  | .exists => "File exists"
  | .notDirectory => "Not a directory"
  | .isDirectory => "Is a directory"
  | .nameTooLong => "File name too long"
  | .linkLoop => "Too many levels of symbolic links"

/-- How a value is ill-formed for the use made of it. Values are carried as they
are shown. -/
inductive IllFormed
  | notInteger (shown : String)
  | notFloat (shown : String)
  | notBoolean (shown : String)
  | undefinedInteger
  | tooManyDigits (count : Nat)
  | digitLimit
  | embeddedNul
  | negativeCount
  | octetRange
  | pairLength (index length : Nat)
  | outsideDirectory (name : String)
  | directoryItself (shown : String)
  | unknownLevel (shown : String)
deriving DecidableEq, Repr

def IllFormed.message : IllFormed → String
  | .notInteger shown =>
      "invalid literal for int() with base 10: " ++ String.ofList (shown.toList.take 200)
  | .notFloat shown => "could not convert string to float: " ++ shown
  | .notBoolean shown => "not a boolean: " ++ shown
  | .undefinedInteger => "cannot convert float NaN to integer"
  | .tooManyDigits count =>
      "Exceeds the limit (4300 digits) for integer string conversion: value has " ++ toString count ++
        " digits; use sys.set_int_max_str_digits() to increase the limit"
  | .digitLimit =>
      "Exceeds the limit (4300 digits) for integer string conversion; " ++
        "use sys.set_int_max_str_digits() to increase the limit"
  | .embeddedNul => "embedded null byte"
  | .negativeCount => "negative count"
  | .octetRange => "bytes must be in range(0, 256)"
  | .pairLength index length =>
      "dictionary update sequence element #" ++ toString index ++ " has length " ++ toString length ++
        "; 2 is required"
  | .outsideDirectory name => "Invalid filename: " ++ name ++ " - path traversal detected"
  | .directoryItself shown => "Invalid filename: " ++ shown ++ " - resolves to the directory itself"
  | .unknownLevel shown => "Unknown level: " ++ shown

/-- `wrongType` stands for a value of a kind that has no meaning there,
`overflow` for a number out of range, `noElement` for an element that is not
there. -/
inductive Failure
  | wrongType
  | overflow
  | noElement
  | illFormed (why : IllFormed)
  | encoding (fault : Text.Utf8.Fault)
  | base64 (fault : Base64.Fault)
  | linkLoop (path : String)
  | system (code : SystemCode) (path : String)
  | client (error : ClientError)
deriving DecidableEq, Repr

def Failure.message : Failure → String
  | .wrongType | .overflow | .noElement => ""
  | .illFormed why => why.message
  | .encoding fault => fault.message
  | .base64 fault => fault.message
  | .linkLoop path => "Symlink loop from " ++ Text.quote path
  | .system code path =>
      "[Errno " ++ toString code.number ++ "] " ++ code.text ++ ": " ++ Text.quote path
  | .client error => error.text

def Failure.isSystem : Failure → Bool
  | .system .. => true
  | .client error => error.family = .system
  | _ => false

def Failure.interrupts : Failure → Bool
  | .client error => error.family = .interruption
  | _ => false

def Failure.isIllFormed : Failure → Bool
  | .illFormed _ | .encoding _ | .base64 _ => true
  | _ => false

inductive ArgumentFault
  | unsupportedType (name : String)
  | blankKey
  | notDuration (shown : String) (cause : Failure)
  | durationNotPositive (shown : String)
  | noClient
  | noStore
  | noFile
  | namelessFile
  | textMode (name : String)
  | noFileName (shown : String)
  | emptyFileName
  | refusedInput (operation : String) (key : String) (cause : ClientError)
deriving DecidableEq, Repr

inductive FileFault
  | unreadable (name : String) (cause : Failure)
  | refusedName (shown : String) (cause : Failure)
  | unwritable (path : String) (cause : Failure)
deriving DecidableEq, Repr

inductive MismatchFault
  | storedValue (shown : String) (wanted : String) (cause : Failure)
  | otherKind (operation : String) (key : String) (cause : ClientError)
deriving DecidableEq, Repr

inductive UnavailableFault
  | failed (operation : String) (key : String) (cause : ClientError)
  | unreachable (address : String) (cause : ClientError)
deriving DecidableEq, Repr

inductive StoreError
  | invalidArgument (fault : ArgumentFault)
  | fileIO (fault : FileFault)
  | decode (fault : Base64.Fault)
  | typeMismatch (fault : MismatchFault)
  | unavailable (fault : UnavailableFault)
  | bare (failure : Failure)
deriving DecidableEq, Repr

def onKey (operation key : String) : String :=
  operation ++ " on " ++ Text.quote key

def ArgumentFault.message : ArgumentFault → String
  | .unsupportedType name => "Unsupported value type: <class '" ++ name ++ "'>"
  | .blankKey => "Redis key must be a non-empty string"
  | .notDuration shown _ => "Invalid TTL: " ++ shown
  | .durationNotPositive shown => "TTL must be positive, got " ++ shown
  | .noClient => "A Redis client is required"
  | .noStore => "A KeyValueStore is required"
  | .noFile => "File must not be None"
  | .namelessFile => "File object has no usable name"
  | .textMode name => name ++ " must be opened in binary mode"
  | .noFileName shown => "Path has no file name: " ++ shown
  | .emptyFileName => "File name must be a non-empty string"
  | .refusedInput operation key cause => onKey operation key ++ ": " ++ cause.text

def FileFault.message : FileFault → String
  | .unreadable name cause => "Failed to read " ++ name ++ ": " ++ cause.message
  | .refusedName shown cause => "Refusing to restore " ++ shown ++ ": " ++ cause.message
  | .unwritable path cause => "Failed to write restored file " ++ path ++ ": " ++ cause.message

def MismatchFault.message : MismatchFault → String
  | .storedValue shown wanted _ => "Stored value " ++ shown ++ " is not a valid " ++ wanted
  | .otherKind operation key cause => onKey operation key ++ ": " ++ cause.text

def UnavailableFault.message : UnavailableFault → String
  | .failed operation key cause =>
      operation ++ " failed for " ++ Text.quote key ++ ": " ++ cause.text
  | .unreachable address _ => "Redis is unreachable at " ++ address

namespace StoreError

def message : StoreError → String
  | .invalidArgument fault => fault.message
  | .fileIO fault => fault.message
  | .decode fault => "Cached file content is not valid Base64: " ++ fault.message
  | .typeMismatch fault => fault.message
  | .unavailable fault => fault.message
  | .bare failure => failure.message

def cause? : StoreError → Option Failure
  | .invalidArgument (.notDuration _ cause) => some cause
  | .invalidArgument (.refusedInput _ _ cause) => some (.client cause)
  | .invalidArgument _ => none
  | .fileIO (.unreadable _ cause) | .fileIO (.refusedName _ cause) | .fileIO (.unwritable _ cause) =>
      some cause
  | .decode fault => some (.base64 fault)
  | .typeMismatch (.storedValue _ _ cause) => some cause
  | .typeMismatch (.otherKind _ _ cause) => some (.client cause)
  | .unavailable (.failed _ _ cause) | .unavailable (.unreachable _ cause) => some (.client cause)
  | .bare _ => none

end StoreError

end FileStash
