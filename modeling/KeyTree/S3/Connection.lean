import KeyTree.S3.Bucket

/-!
Connecting to a bucket. A client is made for the bucket from the options, unless one
is at hand.
-/
namespace KeyTree.S3

def defaultSuffix : Key := ['_', '$', 'f', 'o', 'l', 'd', 'e', 'r', '$']

structure Options where
  bucket : Key
  endpointUrl : Option String := none
  accessKey : Option String := none
  secretKey : Option String := none
  suffix : Key := defaultSuffix
  deriving Repr

/-- The client that has to be made. -/
structure ClientSpec where
  service : String := "s3"
  signature : String := "s3v4"
  endpointUrl : Option String
  accessKey : Option String
  secretKey : Option String
  deriving DecidableEq, Repr

/-- The bucket, and the client to be made for it. -/
def connect (options : Options) (hasClient : Bool) :
    Except Defect (Bucket × Option ClientSpec) :=
  if empty : options.bucket = [] then .error .emptyBucket
  else
    let spec : ClientSpec :=
      { endpointUrl := options.endpointUrl
        accessKey := options.accessKey
        secretKey := options.secretKey }
    .ok (⟨options.bucket, options.suffix, empty⟩, if hasClient then none else some spec)

end KeyTree.S3
