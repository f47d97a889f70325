import KeyTree.Number.Binary64

/-!
Times of objects. A time in microseconds becomes seconds and then milliseconds at
binary64 precision, so now and then the last millisecond is lost.
-/
namespace KeyTree.S3

def secondsOfMicroseconds (microseconds : Int) : Rat :=
  Binary64.nearest (mkRat microseconds 1000000)

def millisecondsOfMicroseconds (microseconds : Int) : Int :=
  Binary64.truncate (Binary64.nearest (secondsOfMicroseconds microseconds * 1000))

end KeyTree.S3
