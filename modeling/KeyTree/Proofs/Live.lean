import KeyTree.Proofs.Backend
import KeyTree.Proofs.Token
import KeyTree.S3.Bucket

/-!
A bucket with a dictionary client as a backend. Single objects are answered for as the
dictionary says. A page of a listing is cut from the entries as they are when it is asked for,
at the offset where the page before it ended.
-/
namespace KeyTree.S3

open Program (handlerOf)

namespace Bucket

/-- The bucket as its requests are served with a dictionary client. -/
abbrev live (bucket : Bucket) : Backend where
  Cursor := Cursor
  State := Contents
  serve := handlerOf bucket.serve Dictionary.serve
  contents := id

/-- The page at an offset of the entries as they are. -/
def pageAt (entries : List Listed) (stem : Key) (recursive : Bool) (pageSize offset : Nat) :
    Store.Page Cursor where
  objects := Listed.objects ((entries.drop offset).take pageSize)
  groups := Listed.groups ((entries.drop offset).take pageSize)
  next :=
    if offset + pageSize < entries.length then
      some ⟨stem, recursive, pageSize, Dictionary.tokenAt (offset + pageSize : Nat)⟩
    else none

variable {bucket : Bucket} {stem : Key} {recursive : Bool} {pageSize offset : Nat}
  {contents : Contents}

/-- A request ends as what follows the one call of the client that it makes. -/
theorem ends_served {query : Store.Request Cursor} {call : Request} {answer : call.Answer}
    {next : call.Answer → Action query.Answer} {after : Contents}
    {post : Except Failure query.Answer → Contents → Prop}
    (calls : bucket.serve query = (Program.request (I := client) call).bind next)
    (answered : Dictionary.serve call contents = (.ok answer, after))
    (ended : post ((next answer).run Dictionary.serve after).result
      ((next answer).run Dictionary.serve after).state) :
    bucket.live.Ends (Program.request (I := Store.interface Cursor) query) contents post := by
  rintro state rfl
  have same : (((Program.request (I := client) call).bind next).run Dictionary.serve state) =
      ((next answer).run Dictionary.serve after).after [] [⟨call, .ok answer⟩] := by
    rw [Program.run_bind, Program.run_request]
    have result := congrArg Prod.fst answered
    have left := congrArg Prod.snd answered
    dsimp only [id] at result left ⊢
    rw [result, left]
    rfl
  rw [Program.run_request]
  simp only [handlerOf, calls, same]
  exact ended

theorem statusOf_stored (length : Nat) :
    statusOf ⟨some (.integer length), some Dictionary.writeTime⟩ =
      .ok ⟨length, millisecondsOfMicroseconds Dictionary.writeTime⟩ := by
  have size : sizeOf (some (.integer length)) = .ok (length : Int) := by
    rw [sizeOf]
    split
    · rename_i empty
      rw [Scalar.isEmpty, decide_eq_true_eq] at empty
      rw [empty]
    · rfl
  rw [statusOf, size, Option.map_some, Option.getD_some]
  rfl

theorem mapM_required (name : String) (keys : List Key) :
    (keys.map some).mapM (required name) = .ok keys := by
  induction keys with
  | nil => rfl
  | cons key rest ih =>
    rw [List.map_cons, List.mapM_cons, ih]
    rfl

/-- The part of the entries behind an offset that counts from the start. -/
theorem listing_natCast (entries : List Listed) (offset pageSize : Nat) :
    Dictionary.listing entries offset pageSize =
      { keys := (Listed.objects ((entries.drop offset).take pageSize)).map some
        groups := (Listed.groups ((entries.drop offset).take pageSize)).map some
        truncated := decide (offset + pageSize < entries.length)
        nextToken := if offset + pageSize < entries.length then
          some (Dictionary.tokenAt (offset + pageSize : Nat)) else none } := by
  rw [Dictionary.listing, Dictionary.slice_natCast, ← Int.natCast_add]
  simp only [Int.ofNat_lt, decide_eq_true_eq]

/-- The response to a listing becomes the page at its offset. -/
theorem pageOf_listing (entries : List Listed) :
    pageOf stem recursive pageSize (Dictionary.listing entries offset pageSize) =
      .ok (pageAt entries stem recursive pageSize offset) := by
  rw [listing_natCast, pageOf, mapM_required, mapM_required, pageAt]
  by_cases more : offset + pageSize < entries.length
  · have named := Dictionary.tokenAt_ne_nil (offset + pageSize)
    simp only [more, named, ne_eq, not_false_eq_true, if_true, decide_true, Bool.true_and]
    rfl
  · simp only [more, if_false]
    rfl

/-- A stem that is left out is the empty one. -/
theorem getD_stem (stem : Key) : (if stem = [] then none else some stem).getD [] = stem := by
  split
  · rename_i bare
    exact bare.symm
  · rfl

theorem isSome_delimiter (recursive : Bool) :
    (if recursive then none else some [Path.separator]).isSome = !recursive := by
  cases recursive <;> rfl

/-- What the dictionary answers to the query of a fetch. -/
theorem answerList_fetch (contents : Contents) (bucket : Key) {token : Option Token}
    (read : Dictionary.offset token = .ok (offset : Int)) :
    Dictionary.answerList contents
        { bucket, maxKeys := pageSize
          stem := if stem = [] then none else some stem
          delimiter := if recursive then none else some [Path.separator]
          token } =
      .ok (Dictionary.listing (contents.entries stem !recursive) offset pageSize) := by
  simp only [Dictionary.answerList, read, getD_stem, isSome_delimiter]
  rfl

/-- A fetched page is the one at its offset of the entries as they are. -/
theorem run_fetch (bucket : Bucket) (contents : Contents) (stem : Key) (recursive : Bool)
    (pageSize : Nat) {token : Option Token} (read : Dictionary.offset token = .ok (offset : Int)) :
    ((bucket.fetch stem recursive pageSize token).run Dictionary.serve contents).result =
        .ok (some (pageAt (contents.entries stem !recursive) stem recursive pageSize offset)) ∧
      ((bucket.fetch stem recursive pageSize token).run Dictionary.serve contents).state =
        contents := by
  rw [fetch, Program.bind_eq_bind, Program.run_bind, list, Program.run_request]
  simp only [Dictionary.serve, answerList_fetch contents bucket.name read, Run.andThen_ok,
    pageOf_listing]
  exact ⟨rfl, rfl⟩

/-- A listing starts with the page at its start. -/
theorem ends_list (bucket : Bucket) (contents : Contents) :
    bucket.live.Ends (Store.list stem recursive pageSize) contents fun result later =>
      result = .ok (some (pageAt (contents.entries stem !recursive) stem recursive pageSize 0)) ∧
        later = contents := by
  rintro state rfl
  have start : Dictionary.offset none = .ok ((0 : Nat) : Int) := rfl
  rw [Store.list, Program.run_request]
  simp only [handlerOf, serve]
  exact run_fetch bucket state stem recursive pageSize start

/-- It goes on with the page where the one before it ended, of the entries as they are by then. -/
theorem ends_more (bucket : Bucket) (contents : Contents) :
    bucket.live.Ends (Store.more ⟨stem, recursive, pageSize, Dictionary.tokenAt offset⟩) contents
      fun result later => result =
          .ok (some (pageAt (contents.entries stem !recursive) stem recursive pageSize offset)) ∧
        later = contents := by
  rintro state rfl
  rw [Store.more, Program.run_request]
  simp only [handlerOf, serve]
  exact run_fetch bucket state stem recursive pageSize (Dictionary.offset_tokenAt offset)

theorem live_faithful (bucket : Bucket) : bucket.live.Faithful where
  status contents key := by
    cases found : contents[key]? with
    | none =>
      refine ends_served rfl (by rw [Dictionary.serve, found]) ⟨rfl, none, rfl, ?_⟩
      simp [Contents.not_mem_iff_lookup.mpr found]
    | some content =>
      refine ends_served rfl (by rw [Dictionary.serve, found]) ?_
      dsimp only
      rw [statusOf_stored]
      refine ⟨rfl, some _, rfl, ?_⟩
      simp [Contents.mem_iff_lookup.mpr ⟨content, found⟩]
  createEmpty contents key := ends_served rfl rfl ⟨rfl, rfl⟩
  copy contents source destination := by
    cases found : contents[source]? with
    | none => exact ends_served rfl (by rw [Dictionary.serve, found]) ⟨rfl, rfl⟩
    | some content => exact ends_served rfl (by rw [Dictionary.serve, found]) ⟨rfl, rfl⟩
  delete contents key := ends_served rfl rfl ⟨rfl, rfl⟩
  openUpload contents key := by
    rintro state rfl
    exact ⟨rfl, rfl⟩
  store contents key content := ends_served rfl rfl ⟨rfl, rfl⟩
  peek contents stem := by
    have first : bucket.live.Ends (Store.list stem true (1 : Nat)) contents _ :=
      ends_list bucket contents
    refine first.mono ?_
    rintro result later ⟨rfl, rfl⟩
    refine ⟨rfl, _, rfl, ?_⟩
    rw [pageAt, List.drop_zero]
    exact Contents.objects_firstPage_eq_nil

end Bucket
end KeyTree.S3
