/-!
Errors of an S3 client. The service may refuse a call with a code and a message,
either of which may be missing, or the call may not reach the service at all.
-/
namespace KeyTree.S3

/-- The calls that a client can make. -/
inductive Call where
  | head
  | put
  | copy
  | delete
  | list
  deriving DecidableEq, Repr

def Call.name : Call → String
  | head => "HeadObject"
  | put => "PutObject"
  | copy => "CopyObject"
  | delete => "DeleteObject"
  | list => "ListObjectsV2"

inductive ClientError where
  | service (call : Call) (code message : Option String)
  | unreachable (url : String)
  | noCredentials
  deriving DecidableEq, Repr

namespace ClientError

def message : ClientError → String
  | service call code message =>
    let code := code.getD "Unknown"
    let message := message.getD "Unknown"
    s!"An error occurred ({code}) when calling the {call.name} operation: {message}"
  | unreachable url => s!"Could not connect to the endpoint URL: \"{url}\""
  | noCredentials => "Unable to locate credentials"

/-- The codes that tell of an absent object. -/
def absenceCodes : List String := ["404", "NoSuchKey", "NotFound"]

/-- Whether the error only says that there is no such object. -/
def saysAbsent : ClientError → Bool
  | service _ (some code) _ => code ∈ absenceCodes
  | _ => false

end ClientError
end KeyTree.S3
