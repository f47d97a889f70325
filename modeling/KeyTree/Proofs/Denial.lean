import KeyTree.Proofs.Furnishing

/-!
Making a directory while some markers cannot be made. A failing creation tells twice. In the look
for a directory it hides one that has no marker yet, so the walk goes on further up (`Seen`,
`Pending`); and in the creation of what is pending, which goes from the outermost inwards, it ends
the whole. So what is left of it are the markers outside the first that was denied (`Granted`).
-/
namespace KeyTree

open KeyTree.Path (separator)
open Program (Ensures Returns)

theorem Path.Above.not_upTo {path other : Path} (above : path.Above other) :
    ¬ other.UpTo path := by
  rintro (rfl | below)
  · exact not_above_self above
  · exact not_above_self (above.trans below)

/-- The request creates one of these keys. -/
def Store.Request.Creates {Cursor : Type} (denied : Key → Prop) : Store.Request Cursor → Prop
  | .createEmpty key => denied key
  | _ => False

/-- Whenever one of these keys is to be created this fails, and nothing else ever does. -/
def Faults.Denies (faults : Faults) (denied : Key → Prop) : Prop :=
  ∀ turn query, (faults turn query).isSome = true ↔ query.Creates denied

/-- The creations of these keys fail. -/
def Faults.creating (denied : Key → Prop) [DecidablePred denied] : Faults := fun _ query =>
  match query with
  | .createEmpty key => if denied key then some "not created" else none
  | _ => none

theorem Faults.denies_creating (denied : Key → Prop) [DecidablePred denied] :
    (Faults.creating denied).Denies denied := by
  intro turn query
  cases query with
  | createEmpty key =>
    rw [Faults.creating, Store.Request.Creates]
    split
    · exact iff_of_true rfl ‹_›
    · exact iff_of_false nofun ‹_›
  | status | copy | delete | list | more | openUpload | store => exact iff_of_false nofun id

namespace Memory
variable {denied : Key → Prop} {faults : Faults} {memory : Memory} {α : Type}

/-- The memory fails to create these keys, and serves all other requests. -/
def denying (denied : Key → Prop) : Behaviour (Store.interface Cursor) Memory :=
  fun query memory answer later =>
    ¬ query.Creates denied ∧ answer = (serve query memory).1 ∧ later = (serve query memory).2 ∨
      query.Creates denied ∧ (∃ message, answer = query.failed message) ∧ later = memory

theorem serveFaulty_denying (denies : faults.Denies denied) :
    Handler.Within (serveFaulty faults) Faulty.memory (denying denied) := by
  intro query faulty
  have fails := denies faulty.turn query
  simp only [serveFaulty]
  split
  · rename_i message hit
    rw [hit] at fails
    exact .inr ⟨fails.mp rfl, ⟨message, rfl⟩, rfl⟩
  · rename_i spared
    rw [spared] at fails
    exact .inl ⟨fun creates => Bool.false_ne_true (fails.mpr creates), rfl, rfl⟩

/-- What holds if these creations may fail holds if they do. -/
theorem ensures_denying {program : Store.Action Cursor α} {post : Except Failure α → Memory → Prop}
    (ensured : program.Ensures (may (·.Creates denied)) memory post) :
    program.Ensures (denying denied) memory post := by
  have allowed : ∀ query state answer later, denying denied query state answer later →
      may (·.Creates denied) query (id state) answer (id later) := by
    rintro query state answer later (⟨_, served⟩ | failed)
    · exact .inl served
    · exact .inr failed
  exact Ensures.of_view allowed ensured

theorem run_of_ensures_denying {program : Store.Action Cursor α}
    {post : Except Failure α → Memory → Prop} (turn : Nat) (denies : faults.Denies denied)
    (ensured : program.Ensures (denying denied) memory post) :
    post (program.run (serveFaulty faults) ⟨memory, turn⟩).result
      (program.run (serveFaulty faults) ⟨memory, turn⟩).state.memory :=
  Ensures.run (serveFaulty_denying denies) ensured

theorem returns_createEmpty_denying (memory : Memory) (key : Key) :
    (Store.createEmpty key).Returns (denying denied) memory fun made later =>
      made = true ∧ ¬ denied key ∧ later = memory.insert key [] ∨
        made = false ∧ denied key ∧ later = memory := by
  rintro answer later (⟨granted, rfl, rfl⟩ | ⟨hit, ⟨message, rfl⟩, rfl⟩)
  · exact ⟨_, rfl, .inl ⟨rfl, granted, rfl⟩⟩
  · exact ⟨_, rfl, .inr ⟨rfl, hit, rfl⟩⟩

theorem returns_status_denying (memory : Memory) (key : Key) :
    (Store.status key).Returns (denying denied) memory fun status later =>
      status = memory.status key ∧ later = memory := by
  rintro answer later (⟨_, rfl, rfl⟩ | ⟨⟨⟩, _⟩)
  exact ⟨_, rfl, rfl, rfl⟩

end Memory

namespace Contents
variable {suffix : Key} {denied : Key → Prop} {contents : Contents} {chain : Path → Prop}
  {path other : Path}

/-- A look finds the directory: it has a marker, or keys below it and a marker that can be
made. -/
def Seen (suffix : Key) (denied : Key → Prop) (contents : Contents) (path : Path) : Prop :=
  path ++ suffix ∈ contents ∨ contents.Under path ∧ ¬ denied (path ++ suffix)

/-- On the way up, the path comes before the first directory that is seen. -/
def Pending (suffix : Key) (denied : Key → Prop) (contents : Contents) (chain : Path → Prop)
    (path : Path) : Prop :=
  chain path ∧ ∀ inner, chain inner → inner.UpTo path → ¬ contents.Seen suffix denied inner

/-- On the way up, the path is the first directory that is seen. -/
def Halts (suffix : Key) (denied : Key → Prop) (contents : Contents) (chain : Path → Prop)
    (path : Path) : Prop :=
  chain path ∧ contents.Seen suffix denied path ∧
    ∀ inner, chain inner → inner.Above path → ¬ contents.Seen suffix denied inner

/-- The markers of all that is pending can be made. -/
def Allowed (suffix : Key) (denied : Key → Prop) (contents : Contents) (chain : Path → Prop) :
    Prop :=
  ∀ path, contents.Pending suffix denied chain path → ¬ denied (path ++ suffix)

/-- The path is pending, and comes before the first marker that cannot be made. -/
def Granted (suffix : Key) (denied : Key → Prop) (contents : Contents) (chain : Path → Prop)
    (path : Path) : Prop :=
  contents.Pending suffix denied chain path ∧
    ∀ outer, contents.Pending suffix denied chain outer → path.UpTo outer →
      ¬ denied (outer ++ suffix)

section seen
variable (seen : contents.Seen suffix denied path)
include seen

theorem not_pending_of_seen : ¬ contents.Pending suffix denied path.UpTo other :=
  fun pending => pending.2 path (.inl rfl) pending.1 seen

theorem halts_iff_of_seen : contents.Halts suffix denied path.UpTo other ↔ other = path := by
  constructor
  · rintro ⟨rfl | above, _, first⟩
    · rfl
    · exact absurd seen (first path (.inl rfl) above)
  · rintro rfl
    refine ⟨.inl rfl, seen, ?_⟩
    rintro inner (rfl | above) below
    · exact absurd below Path.not_above_self
    · exact absurd (.inr below) above.not_upTo

end seen

section unseen
variable (unseen : ¬ contents.Seen suffix denied path)
include unseen

theorem pending_iff_of_unseen : contents.Pending suffix denied path.UpTo other ↔
    other = path ∨ contents.Pending suffix denied path.Above other := by
  constructor
  · rintro ⟨rfl | above, unmet⟩
    · exact .inl rfl
    · exact .inr ⟨above, fun inner higher => unmet inner (.inr higher)⟩
  · rintro (rfl | ⟨above, unmet⟩)
    · refine ⟨.inl rfl, ?_⟩
      rintro inner (rfl | above) upTo
      · exact unseen
      · exact absurd upTo above.not_upTo
    · refine ⟨.inr above, ?_⟩
      rintro inner (rfl | higher) upTo
      · exact unseen
      · exact unmet inner higher upTo

theorem halts_iff_of_unseen : contents.Halts suffix denied path.UpTo other ↔
    contents.Halts suffix denied path.Above other := by
  constructor
  · rintro ⟨rfl | above, seen, first⟩
    · exact absurd seen unseen
    · exact ⟨above, seen, fun inner higher => first inner (.inr higher)⟩
  · rintro ⟨above, seen, first⟩
    refine ⟨.inr above, seen, ?_⟩
    rintro inner (rfl | higher) below
    · exact unseen
    · exact first inner higher below

theorem allowed_iff_of_unseen : contents.Allowed suffix denied path.UpTo ↔
    contents.Allowed suffix denied path.Above ∧ ¬ denied (path ++ suffix) := by
  simp only [Allowed, pending_iff_of_unseen unseen, or_imp, forall_and, forall_eq]
  exact and_comm

theorem granted_iff_of_unseen : contents.Granted suffix denied path.UpTo other ↔
    contents.Granted suffix denied path.Above other ∨
      other = path ∧ contents.Allowed suffix denied path.UpTo := by
  constructor
  · rintro ⟨pending, free⟩
    rcases (pending_iff_of_unseen unseen).mp pending with rfl | higher
    · exact .inr ⟨rfl, fun outer waits => free outer waits waits.1⟩
    · exact .inl ⟨higher, fun outer waits =>
        free outer ((pending_iff_of_unseen unseen).mpr (.inr waits))⟩
  · rintro (⟨pending, free⟩ | ⟨rfl, allowed⟩)
    · refine ⟨(pending_iff_of_unseen unseen).mpr (.inr pending), fun outer waits upTo => ?_⟩
      -- The path itself is the innermost, so it does not come before any other.
      rcases (pending_iff_of_unseen unseen).mp waits with rfl | higher
      · exact absurd upTo (Path.Above.not_upTo pending.1)
      · exact free outer higher upTo
    · exact ⟨(pending_iff_of_unseen unseen).mpr (.inl rfl), fun outer waits _ => allowed outer waits⟩

end unseen
end Contents

/-- Making a chain of directories succeeds if the markers of all that is pending can be made. It
marks the directory that is seen first, and what is granted below it. -/
structure Supplied (suffix : Key) (denied : Key → Prop) (chain : Path → Prop) (before : Memory)
    (result : Except Failure Unit) (after : Memory) : Prop where
  tells : Tells (before.contents.Allowed suffix denied chain) result
  gains : Gains suffix (fun other => before.contents.Halts suffix denied chain other ∨
    before.contents.Granted suffix denied chain other) before.contents after.contents

/-- Nothing is pending up to a path that is seen. -/
theorem Supplied.of_seen {suffix : Key} {denied : Key → Prop} {path : Path} {before after : Memory}
    (seen : before.contents.Seen suffix denied path)
    (gains : Gains suffix (· = path) before.contents after.contents) :
    Supplied suffix denied path.UpTo before (.ok ()) after := by
  have none_pending : ∀ other, ¬ before.contents.Pending suffix denied path.UpTo other :=
    fun _ => Contents.not_pending_of_seen seen
  refine ⟨.inl ⟨fun other pending => absurd pending (none_pending other), rfl⟩,
    gains.congr fun other => ?_⟩
  rw [Contents.halts_iff_of_seen seen, or_iff_left fun granted => none_pending other granted.1]

/-- The last step of it makes the marker of the path itself, unless this is denied. -/
structure Capped (suffix : Key) (denied : Key → Prop) (path : Path) (before : Memory)
    (result : Except Failure Unit) (after : Memory) : Prop where
  tells : Tells (¬ denied (path ++ suffix)) result
  gains : Gains suffix (fun other => other = path ∧ ¬ denied (path ++ suffix)) before.contents
    after.contents

namespace FileSystem
variable {fs : FileSystem} {denied : Key → Prop} {memory : Memory} {path : Path}

theorem returns_healMarker_denying {marker : Key} (absent : marker ∉ memory.contents) :
    (healMarker marker).Returns (Memory.denying denied) memory fun status later =>
      status.isSome = true ∧ ¬ denied marker ∧ later = memory.insert marker [] ∨
        status.isSome = false ∧ denied marker ∧ later = memory := by
  refine Ensures.notify (Returns.bind (Memory.returns_createEmpty_denying memory marker) ?_)
  rintro made later (⟨_, granted, rfl⟩ | ⟨_, hit, rfl⟩)
  · apply Returns.mono (Memory.returns_status_denying _ marker)
    rintro status later ⟨rfl, rfl⟩
    refine .inl ⟨status_isSome.mpr ?_, granted, rfl⟩
    exact Contents.mem_iff_lookup.mpr ⟨[], (Contents.lookup_insert ..).trans (if_pos rfl)⟩
  · apply Returns.mono (Memory.returns_status_denying _ marker)
    rintro status later ⟨rfl, rfl⟩
    exact .inr ⟨by rwa [← Bool.not_eq_true, status_isSome], hit, rfl⟩

section proper
variable (proper : fs.Proper) (plain : Path.Plain fs.suffix path)
include proper plain

theorem returns_probeBelow_denying (unmarked : path ++ fs.suffix ∉ memory.contents) :
    (fs.probeBelow path).Returns (Memory.denying denied) memory fun status later =>
      status.isSome = true ∧ memory.contents.Seen fs.suffix denied path ∧
          later = memory.insert (path ++ fs.suffix) [] ∨
        status.isSome = false ∧ ¬ memory.contents.Seen fs.suffix denied path ∧
          later = memory := by
  have seen_iff : memory.contents.Seen fs.suffix denied path ↔
      memory.contents.Under path ∧ ¬ denied (path ++ fs.suffix) := or_iff_right unmarked
  rw [probeBelow, proper.stem_plain plain, proper.markerKey_plain plain, seen_iff]
  refine Returns.bind (Memory.ensures_denying (Memory.returns_attempt_list _ memory _ true 1)) ?_
  rintro answer later ⟨rfl, rfl | ⟨⟨⟩, _⟩⟩
  dsimp only
  split
  · rename_i empty
    have bare := Contents.objects_firstPage_eq_nil.mp empty
    exact ⟨none, rfl, .inr ⟨rfl, fun seen => seen.1.elim fun key found =>
      bare key found.1 found.2, rfl⟩⟩
  · rename_i shown
    have under : later.contents.Under path := by
      by_contra bare
      exact shown (Contents.objects_firstPage_eq_nil.mpr fun key present below =>
        bare ⟨key, present, below⟩)
    apply Returns.mono (returns_healMarker_denying unmarked)
    rintro status healed (⟨found, granted, same⟩ | ⟨missed, hit, same⟩)
    · exact .inl ⟨found, ⟨under, granted⟩, same⟩
    · exact .inr ⟨missed, fun seen => seen.2 hit, same⟩

/-- A look for a directory that is seen leaves it with its marker; one for any other changes
nothing. -/
theorem returns_isDirectory_denying :
    (fs.isDirectory path).Returns (Memory.denying denied) memory fun found later =>
      found = true ∧ memory.contents.Seen fs.suffix denied path ∧
          Gains fs.suffix (· = path) memory.contents later.contents ∨
        found = false ∧ ¬ memory.contents.Seen fs.suffix denied path ∧ later = memory := by
  rw [isDirectory, proper.isRoot_plain plain, if_neg Bool.false_ne_true, probe,
    proper.isRoot_plain plain, if_neg Bool.false_ne_true, proper.markerKey_plain plain,
    Program.bind_eq_bind, Program.bind_eq_bind, Program.bind_assoc]
  apply Returns.bind (Memory.returns_status_denying memory _)
  rintro status later ⟨rfl, rfl⟩
  cases found : later.status (path ++ fs.suffix) with
  | some status =>
    have marked : path ++ fs.suffix ∈ later.contents := status_isSome.mp (by rw [found]; rfl)
    exact ⟨true, rfl, .inl ⟨rfl, .inl marked, .refl fun _ same => same ▸ marked⟩⟩
  | none =>
    have unmarked : path ++ fs.suffix ∉ later.contents := by simp [← status_isSome, found]
    apply Returns.bind (returns_probeBelow_denying proper plain unmarked)
    rintro status healed (⟨found, seen, rfl⟩ | ⟨missed, unseen, rfl⟩)
    · exact ⟨_, rfl, .inl ⟨found, seen, .insert unmarked⟩⟩
    · exact ⟨_, rfl, .inr ⟨missed, unseen, rfl⟩⟩

theorem returns_isFile_denying (free : path ∉ memory.contents) :
    (fs.isFile path).Returns (Memory.denying denied) memory fun found later =>
      found = false ∧ later = memory := by
  apply Returns.mono (Memory.ensures_denying (returns_isFile proper plain))
  intro found later looked
  exact ⟨Bool.eq_false_iff.mpr fun yes => free (looked.present yes), looked.same⟩

theorem ensures_requireMarker_denying (unmarked : path ++ fs.suffix ∉ memory.contents) :
    (fs.requireMarker path).Ensures (Memory.denying denied) memory
      (Capped fs.suffix denied path memory) := by
  rw [requireMarker, createMarker, proper.markerKey_plain plain]
  apply Returns.bind (Memory.returns_createEmpty_denying memory _)
  rintro made later (⟨rfl, granted, rfl⟩ | ⟨rfl, hit, rfl⟩)
  · exact ⟨.inl ⟨granted, rfl⟩,
      (Gains.insert unmarked).congr fun other => (and_iff_left granted).symm⟩
  · exact ⟨.inr ⟨fun granted => granted hit, _, rfl⟩, .refl fun _ here => absurd hit here.2⟩

theorem ensures_makeAncestor_denying (unmarked : path ++ fs.suffix ∉ memory.contents)
    (free : path ∉ memory.contents) :
    (fs.makeAncestor path).Ensures (Memory.denying denied) memory
      (Capped fs.suffix denied path memory) := by
  apply Returns.bind (returns_isFile_denying proper plain free)
  rintro file later ⟨rfl, rfl⟩
  exact ensures_requireMarker_denying proper plain unmarked

/-- Once what is pending above a path that is not seen is made, the path itself comes last. -/
theorem ensures_furnish_last {last : Store.Action Memory.Cursor Unit}
    (unseen : ¬ memory.contents.Seen fs.suffix denied path) (free : path ∉ memory.contents)
    (above : (fs.furnish path).Ensures (Memory.denying denied) memory
      (Supplied fs.suffix denied path.Above memory))
    (ends : ∀ later : Memory, path ++ fs.suffix ∉ later.contents → path ∉ later.contents →
      last.Ensures (Memory.denying denied) later (Capped fs.suffix denied path later)) :
    ((fs.furnish path).bind fun _ => last).Ensures (Memory.denying denied) memory
      (Supplied fs.suffix denied path.UpTo memory) := by
  have allowed_iff := Contents.allowed_iff_of_unseen unseen
  apply Ensures.bind above
  · rintro _ later ⟨⟨allowed, _⟩ | ⟨_, _, ⟨⟩⟩, gains⟩
    rw [and_iff_right allowed] at allowed_iff
    have unmarked : path ++ fs.suffix ∉ later.contents := by
      intro marked
      rcases gains.mem_iff.mp marked with old | ⟨other, halts | granted, same⟩
      · exact unseen (.inl old)
      · exact Path.not_above_self (List.append_cancel_right same ▸ halts.1)
      · exact Path.not_above_self (List.append_cancel_right same ▸ granted.1.1)
    apply Ensures.mono (ends later unmarked ((gains.file_iff proper.suffix_whole plain).not.mpr free))
    rintro result final ⟨tells, marks⟩
    refine ⟨tells.congr allowed_iff.symm, (gains.trans marks).congr fun other => ?_⟩
    rw [Contents.halts_iff_of_unseen unseen, Contents.granted_iff_of_unseen unseen, allowed_iff,
      or_assoc]
  · rintro failure later ⟨⟨_, ⟨⟩⟩ | ⟨stuck, refused⟩, gains⟩
    have denies : ¬ memory.contents.Allowed fs.suffix denied path.UpTo :=
      fun allowed => stuck (allowed_iff.mp allowed).1
    refine ⟨.inr ⟨denies, refused⟩, gains.congr fun other => ?_⟩
    have never : ¬ (other = path ∧ memory.contents.Allowed fs.suffix denied path.UpTo) :=
      fun here => denies here.2
    rw [Contents.halts_iff_of_unseen unseen, Contents.granted_iff_of_unseen unseen,
      or_iff_left never]

end proper

section walk
variable (proper : fs.Proper)
include proper

theorem ensures_furnish_denying (plain : Path.Plain fs.suffix path)
    (free : ∀ other, memory.contents.Pending fs.suffix denied path.Above other →
      other ∉ memory.contents) :
    (fs.furnish path).Ensures (Memory.denying denied) memory
      (Supplied fs.suffix denied path.Above memory) := by
  induction path, plain using Path.Plain.last_induction generalizing memory with
  | alone name plain single =>
    rw [furnish, Root.ancestors, parent?_name proper plain single]
    refine ⟨.inl ⟨fun _ pending => absurd pending.1 (Path.not_above_name single), rfl⟩, .refl ?_⟩
    rintro other (halts | granted)
    · exact absurd halts.1 (Path.not_above_name single)
    · exact absurd granted.1.1 (Path.not_above_name single)
  | below parent name above plain first ih =>
    rw [Path.above_child first] at free ⊢
    rw [furnish_below proper plain first]
    apply Returns.bind (returns_isDirectory_denying proper above)
    rintro found looked (⟨rfl, seen, gains⟩ | ⟨rfl, unseen, rfl⟩)
    · exact .of_seen seen gains
    · simp only [Contents.pending_iff_of_unseen unseen, or_imp, forall_and, forall_eq] at free
      apply ensures_furnish_last proper above unseen free.1 (ih free.2)
      intro later unmarked free
      exact ensures_makeAncestor_denying proper above unmarked free

theorem ensures_makeDirectory_denying (plain : Path.Plain fs.suffix path)
    (free : ∀ other, memory.contents.Pending fs.suffix denied path.UpTo other →
      other ∉ memory.contents) :
    (fs.makeDirectory path true).Ensures (Memory.denying denied) memory
      (Supplied fs.suffix denied path.UpTo memory) := by
  rw [makeDirectory, proper.isRoot_plain plain, if_neg Bool.false_ne_true, plain.trimEnd_eq]
  apply Returns.bind (returns_isDirectory_denying proper plain)
  rintro found looked (⟨rfl, seen, gains⟩ | ⟨rfl, unseen, rfl⟩)
  · exact .of_seen seen gains
  · simp only [Contents.pending_iff_of_unseen unseen, or_imp, forall_and, forall_eq] at free
    apply Returns.bind (returns_isFile_denying proper plain free.1)
    rintro file later ⟨rfl, rfl⟩
    show (fs.makeMissing path true).Ensures _ _ _
    rw [makeMissing_furnish]
    apply ensures_furnish_last proper plain unseen free.1
      (ensures_furnish_denying proper plain free.2)
    intro reached unmarked _
    exact ensures_requireMarker_denying proper plain unmarked

theorem returns_makeDirectories_denying (plain : Path.Plain fs.suffix path)
    (free : ∀ other, memory.contents.Pending fs.suffix denied path.UpTo other →
      other ∉ memory.contents) :
    (fs.makeDirectories path).Returns (Memory.denying denied) memory fun made later =>
      (made = true ↔ memory.contents.Allowed fs.suffix denied path.UpTo) ∧
        Gains fs.suffix (fun other => memory.contents.Halts fs.suffix denied path.UpTo other ∨
          memory.contents.Granted fs.suffix denied path.UpTo other) memory.contents
          later.contents :=
  Returns.succeeds_tells (Ensures.mono (ensures_makeDirectory_denying proper plain free)
    fun _ _ supplied => ⟨supplied.tells, supplied.gains⟩) _

end walk

/-- While some keys cannot be created, a directory whose pending paths are no files is made exactly
if the markers of all of these can be. In any case the markers of those outside the first that
cannot be made are there in the end, and nothing else is new but the marker of the directory at
which the walk halted. -/
theorem makeDirectories_denied {faults : Faults} (turn : Nat) (proper : fs.Proper)
    (denies : faults.Denies denied) (plain : Path.Plain fs.suffix path)
    (free : ∀ other, memory.contents.Pending fs.suffix denied path.UpTo other →
      other ∉ memory.contents) :
    let ended := (fs.makeDirectories path).run (Memory.serveFaulty faults) ⟨memory, turn⟩
    let pending := memory.contents.Pending fs.suffix denied path.UpTo
    let granted := fun other =>
      pending other ∧ ∀ outer, pending outer → other.UpTo outer → ¬ denied (outer ++ fs.suffix)
    ∃ made, ended.result = .ok made ∧
      (made = true ↔ ∀ other, pending other → ¬ denied (other ++ fs.suffix)) ∧
      (∀ other, pending other → other ++ fs.suffix ∉ memory.contents ∧
        (other ++ fs.suffix ∈ ended.state.memory.contents ↔ granted other)) ∧
      Gains fs.suffix (fun other =>
          memory.contents.Halts fs.suffix denied path.UpTo other ∨ granted other)
        memory.contents ended.state.memory.contents := by
  intro ended pending granted
  obtain ⟨made, answered, told, gains⟩ := Memory.run_of_ensures_denying turn denies
    (returns_makeDirectories_denying proper plain free)
  refine ⟨made, answered, told, fun other waits => ?_, gains⟩
  have unseen : ¬ memory.contents.Seen fs.suffix denied other := waits.2 other waits.1 (.inl rfl)
  refine ⟨fun marked => unseen (.inl marked), fun marked => ?_, fun here => ?_⟩
  · rcases gains.mem_iff.mp marked with old | ⟨inner, halts | here, same⟩
    · exact absurd (.inl old) unseen
    · exact absurd (List.append_cancel_right same ▸ halts.2.1) unseen
    · exact List.append_cancel_right same ▸ here
  · exact gains.mem_iff.mpr (.inr ⟨other, .inr here, rfl⟩)

theorem makeDirectories_denied_amid :
    let memory := Memory.holding [("r/x".toList, [120]), ("ra".toList, [97])]
    let denied : Key → Prop := fun key => key = "r/a/b_$folder$".toList
    let ended := (usual.makeDirectories "r/a/b/c".toList).run
      (Memory.serveFaulty (.creating (· = "r/a/b_$folder$".toList))) ⟨memory, 0⟩
    let final := ended.state.memory.contents
    (∀ other, memory.contents.Pending usual.suffix denied (Path.UpTo "r/a/b/c".toList) other →
        other ∉ memory.contents) ∧
      memory.contents.Pending usual.suffix denied (Path.UpTo "r/a/b/c".toList) "r/a/b".toList ∧
      ended.result = .ok false ∧ "r_$folder$".toList ∈ final ∧ "r/a_$folder$".toList ∈ final ∧
      "r/a/b_$folder$".toList ∉ final ∧ "r/a/b/c_$folder$".toList ∉ final := by
  intro memory denied ended final
  have clear : ∀ key ∈ memory.contents.keys,
      ¬ (key = "r/a/b/c".toList ∨ key ++ [separator] <+: "r/a/b/c".toList) := by decide +kernel
  have free : ∀ other,
      memory.contents.Pending usual.suffix denied (Path.UpTo "r/a/b/c".toList) other →
        other ∉ memory.contents :=
    fun other waits present => clear other (Std.ExtTreeMap.mem_keys.mpr present) waits.1
  have plain : Path.Plain usual.suffix "r/a/b/c".toList := by decide
  obtain ⟨made, answered, told, _⟩ := makeDirectories_denied 0 usual_proper
    (Faults.denies_creating _) plain free
  have no : ended.result = .ok false := by decide +kernel
  cases no.symm.trans answered
  simp only [Bool.false_eq_true, false_iff, not_forall, not_not] at told
  obtain ⟨other, waits, same⟩ := told
  obtain rfl : other = "r/a/b".toList := List.append_cancel_right (same.trans rfl)
  exact ⟨free, waits, no, by decide +kernel⟩

end FileSystem
end KeyTree
