import Pacing.Proofs.JsonRoundTrip
import Pacing.Proofs.SnapshotSemantics
import Pacing.Snapshot.File

/-!
# Saved windows are loaded again

A snapshot is read back from its text, as long as each segment counts no more views than 64 bits can
hold. A saved window of a tidy state is therefore loaded as a state that nobody can tell from it.
-/

namespace Pacing

namespace Json

/-! ## Taking written values apart -/

/-- The members of a record are those that it was made of. -/
theorem members?_record (members : List (String × Json)) :
    (record members).members? = some members := by
  simp only [record, members?]
  induction members with
  | nil => rfl
  | cons m rest ih => simp [List.mapM_cons, ih]

/-- A member of a record is found under its key if no other one has it. -/
theorem field?_of_mem {members : List (String × Json)} (hkeys : (members.map Prod.fst).Nodup)
    {name : String} {value : Json} (hmem : (name, value) ∈ members) :
    field? members name = some (some value) := by
  have hfilter : members.filter (·.1 = name) = [(name, value)] := by
    induction members with
    | nil => cases hmem
    | cons m rest ih =>
      obtain ⟨hfresh, hkeys⟩ := List.nodup_cons.mp hkeys
      rcases List.mem_cons.mp hmem with rfl | hmem
      · rw [List.filter_cons_of_pos (by simp), List.filter_eq_nil_iff.mpr]
        intro m hm hname
        have hmem : m.1 ∈ rest.map Prod.fst := List.mem_map_of_mem hm
        exact hfresh (of_decide_eq_true hname ▸ hmem)
      · have hne : m.1 ≠ name := fun h => hfresh (h ▸ List.mem_map_of_mem (f := Prod.fst) hmem)
        rw [List.filter_cons_of_neg (by simpa using hne), ih hkeys hmem]
  rw [field?, hfilter]

/-- All members of a record are found under their keys if these differ. -/
theorem mapM_field? {members : List (String × Json)} (hkeys : (members.map Prod.fst).Nodup) :
    (members.map Prod.fst).mapM (field? members) = some (members.map fun m => some m.2) := by
  have hall : ∀ l : List (String × Json), (∀ m ∈ l, m ∈ members) →
      (l.map Prod.fst).mapM (field? members) = some (l.map fun m => some m.2) := by
    intro l hl
    induction l with
    | nil => rfl
    | cons m rest ih =>
      obtain ⟨hm, hrest⟩ := List.forall_mem_cons.mp hl
      simp [List.mapM_cons, field?_of_mem hkeys hm, ih hrest]
  exact hall members fun _ hm => hm

/-- The fields of a record are found by their names. -/
theorem fields?_record (members : List (String × Json)) (hkeys : (members.map Prod.fst).Nodup) :
    (record members).fields? (members.map Prod.fst) = some (members.map fun m => some m.2) := by
  rw [record, fields?, ← record, members?_record, Option.bind_some, mapM_field? hkeys]
  simp

/-- A list is read back from an array if its items are read back. -/
theorem toList?_map {α : Type} {item? : Json → Option α} {toJson : α → Json} {l : List α}
    (hitem : ∀ a ∈ l, item? (toJson a) = some a) :
    (Json.array (l.map toJson)).toList? item? = some l := by
  rw [toList?]
  induction l with
  | nil => rfl
  | cons a rest ih =>
    obtain ⟨ha, hrest⟩ := List.forall_mem_cons.mp hitem
    simp [List.mapM_cons, ha, ih hrest]

/-- An integer is read back. -/
theorem toInt?_int (n : Int) : (int n).toInt? = some n := Number.toInt?_ofInt n

/-- An integer of 64 bits is read back. -/
theorem toInt64?_int (n : Int64) : (int n.toInt).toInt64? = some n := by
  have hrange := And.intro n.minValue_le_toInt n.toInt_le
  rw [toInt64?, toInt?_int, Option.bind_some, if_pos hrange, Int64.ofInt_toInt]

/-- A natural number below the limit is read back. -/
theorem toNatBelow?_int {limit n : Nat} (hn : n < limit) :
    (int n).toNatBelow? limit = some n := by
  simp [toNatBelow?, toInt?_int, hn]

/-- A text is read back. -/
theorem toText?_text (s : String) : (text s).toText? = some s := rfl

/-- A name is read back as what it names. -/
theorem toName?_text {α : Type} {ofName? : String → Option α} {isNothing : Json → Bool} {a : α}
    {name : String} (hname : ofName? name = some a) :
    (text name).toName? ofName? isNothing = some a := hname

/-! ## Readable values -/

namespace Number

/-- Digits behind a number do not make it smaller. -/
theorem le_ofDigitChars (n : Nat) (cs : List Char) : n ≤ Nat.ofDigitChars 10 cs n := by
  induction cs generalizing n with
  | nil => exact Nat.le_refl n
  | cons c rest ih =>
    rw [Nat.ofDigitChars_cons]
    exact Nat.le_trans (by omega) (ih _)

/-- Digits that stand for no more than 64 bits can hold are all taken. -/
theorem absorb_of_lt {significand : Nat} {cs : List Char}
    (hfits : Nat.ofDigitChars 10 cs significand < 2 ^ 64) (taken : Nat) :
    absorb significand taken cs = (Nat.ofDigitChars 10 cs significand, taken + cs.length, []) := by
  induction cs generalizing significand taken with
  | nil => rfl
  | cons c rest ih =>
    rw [Nat.ofDigitChars_cons, Nat.mul_comm] at hfits
    have hnext : significand * 10 + (c.toNat - '0'.toNat) < 2 ^ 64 :=
      Nat.lt_of_le_of_lt (le_ofDigitChars _ rest) hfits
    rw [absorb, if_pos hnext, ih hfits, Nat.ofDigitChars_cons, Nat.mul_comm, List.length_cons]
    simp only [Prod.mk.injEq, and_true, true_and]
    omega

/-- An integer of 64 bits does not overflow as a double. -/
theorem isSome_toFloat?_ofInt {n : Int} (hn : n.natAbs < 2 ^ 64) :
    (ofInt n).toFloat?.isSome = true := by
  have hdigits : Nat.ofDigitChars 10 (Numeral.ofNat n.natAbs) 0 = n.natAbs :=
    Nat.ofDigitChars_ten_toDigits
  have habsorb := absorb_of_lt (hdigits.symm ▸ hn) 0
  simp [toFloat?, ofInt, habsorb, absorb, scale?]

end Number

/-- An integer of 64 bits is readable at every depth. -/
theorem isReadable_int {n : Int} (hn : n.natAbs < 2 ^ 64) (depth : Nat) :
    (int n).isReadable depth = true := by
  cases depth <;> exact Number.isSome_toFloat?_ofInt hn

/-- A text is readable at every depth. -/
theorem isReadable_text (s : String) (depth : Nat) : (text s).isReadable depth = true := by
  cases depth <;> rfl

/-- A truth value is readable at every depth. -/
theorem isReadable_bool (b : Bool) (depth : Nat) : (Json.bool b).isReadable depth = true := by
  cases depth <;> rfl

/-- An array is readable one level above its items. -/
theorem isReadable_array {items : List Json} {depth : Nat}
    (hitems : ∀ j ∈ items, j.isReadable depth = true) :
    (Json.array items).isReadable (depth + 1) = true :=
  List.all_eq_true.mpr hitems

/-- A record is readable one level above its values. -/
theorem isReadable_record {members : List (String × Json)} {depth : Nat}
    (hmembers : ∀ m ∈ members, m.2.isReadable depth = true) :
    (record members).isReadable (depth + 1) = true := by
  simpa [record, isReadable] using fun key value hm => hmembers (key, value) hm

end Json

/-! ## Records of the window -/

/-- A cursor is read back. -/
theorem Cursor.ofJson?_toJson (c : Cursor) : Cursor.ofJson? c.toJson = some c := by
  have hfields := Json.fields?_record
    [("timestamp_ms", .int c.ts.toInt), ("seq", .int c.seq.toNat)] (by simp)
  have hseq : (Json.int c.seq.toNat).toNatBelow? UInt32.size = some c.seq.toNat :=
    Json.toNatBelow?_int c.seq.toNat_lt
  simp only [List.map_cons, List.map_nil] at hfields
  simp [ofJson?, toJson, hfields, Json.toInt64?_int, hseq]

/-- A cursor is written as a plain value. -/
theorem Cursor.plain_toJson (c : Cursor) : c.toJson.Plain :=
  .record (by simp [Json.Plain.int])

/-- A cursor is readable, as it needs one level. -/
theorem Cursor.isReadable_toJson (c : Cursor) (depth : Nat) :
    c.toJson.isReadable (depth + 1) = true := by
  have hts : c.ts.toInt.natAbs < 2 ^ 64 := by
    have hmin : -(2 ^ 63) ≤ c.ts.toInt := c.ts.minValue_le_toInt
    have hmax : c.ts.toInt ≤ 2 ^ 63 - 1 := c.ts.toInt_le
    omega
  have hseq : (c.seq.toNat : Int).natAbs < 2 ^ 64 := by
    have := c.seq.toNat_lt
    omega
  exact Json.isReadable_record (by simp [Json.isReadable_int hts, Json.isReadable_int hseq])

/-- A profile is read back. -/
theorem Profile.ofJson?_toJson (isNothing : Json → Bool) (p : Profile) :
    Profile.ofJson? isNothing p.toJson = some p := by
  have hfields := Json.fields?_record
    [("target_location", .text p.location.name), ("safe_for_all", .bool p.safeForAll)] (by simp)
  simp only [List.map_cons, List.map_nil] at hfields
  simp [ofJson?, toJson, hfields, Json.toName?_text (Location.ofName?_name p.location),
    Json.toBool?]

/-- A profile is written as a plain value. -/
theorem Profile.plain_toJson (p : Profile) : p.toJson.Plain :=
  .record (by simp [Json.Plain.text, Json.Plain.bool])

/-- A profile is readable, as it needs one level. -/
theorem Profile.isReadable_toJson (p : Profile) (depth : Nat) :
    p.toJson.isReadable (depth + 1) = true :=
  Json.isReadable_record (by simp [Json.isReadable_text, Json.isReadable_bool])

/-- The views of a segment fit into 64 bits. -/
def Segment.Fits (s : Segment) : Prop := s.views < 2 ^ 64

instance (s : Segment) : Decidable s.Fits := inferInstanceAs (Decidable (s.views < 2 ^ 64))

/-- A segment is read back if its count fits into a word. -/
theorem Segment.ofJson?_toJson (isNothing : Json → Bool) {s : Segment} (h : s.Fits) :
    Segment.ofJson? isNothing s.toJson = some s := by
  have hfields := Json.fields?_record
    [("profile", s.profile.toJson), ("first_cursor", s.first.toJson),
      ("last_cursor", s.last.toJson), ("views", .int s.views)] (by simp)
  have hviews : (Json.int s.views).toNatBelow? UInt64.size = some s.views := Json.toNatBelow?_int h
  simp only [List.map_cons, List.map_nil] at hfields
  simp [ofJson?, toJson, hfields, Profile.ofJson?_toJson, Cursor.ofJson?_toJson, hviews]

/-- A segment is written as a plain value. -/
theorem Segment.plain_toJson (s : Segment) : s.toJson.Plain :=
  .record (by simp [Profile.plain_toJson, Cursor.plain_toJson, Json.Plain.int])

/-- A segment is readable, as it needs two levels. -/
theorem Segment.isReadable_toJson {s : Segment} (h : s.Fits) (depth : Nat) :
    s.toJson.isReadable (depth + 2) = true := by
  have hviews : (s.views : Int).natAbs < 2 ^ 64 := h
  exact Json.isReadable_record (by
    simp [Profile.isReadable_toJson, Cursor.isReadable_toJson, Json.isReadable_int hviews])

namespace Holding

/-- The views of every segment fit into 64 bits. -/
def Fits (h : Holding) : Prop := ∀ s ∈ h.segments, s.Fits

instance (h : Holding) : Decidable h.Fits :=
  inferInstanceAs (Decidable (∀ s ∈ h.segments, s.Fits))

variable {h : Holding}

/-- A holding is read back from its fields if the counts fit into a word. -/
theorem ofFields?_jsonMembers (isNothing : Json → Bool) (hfits : h.Fits) :
    ofFields? isNothing (h.jsonMembers.map fun m => some m.2) = some h := by
  have hsegments : (Json.array (h.segments.map Segment.toJson)).toList?
      (Segment.ofJson? isNothing) = some h.segments :=
    Json.toList?_map fun s hs => Segment.ofJson?_toJson isNothing (hfits s hs)
  simp [jsonMembers, ofFields?, hsegments, Json.toBool?]

/-- The fields of a holding are written as plain values. -/
theorem plain_jsonMembers (h : Holding) : ∀ m ∈ h.jsonMembers, m.2.Plain := by
  have hsegments : (Json.array (h.segments.map Segment.toJson)).Plain := by
    refine .array fun j hj => ?_
    obtain ⟨s, _, rfl⟩ := List.mem_map.mp hj
    exact s.plain_toJson
  simp [jsonMembers, hsegments, Json.Plain.bool]

/-- The fields of a holding are readable, as they need three levels. -/
theorem isReadable_jsonMembers (hfits : h.Fits) (depth : Nat) :
    ∀ m ∈ h.jsonMembers, m.2.isReadable (depth + 3) = true := by
  have hsegments : (Json.array (h.segments.map Segment.toJson)).isReadable (depth + 3) = true := by
    refine Json.isReadable_array fun j hj => ?_
    obtain ⟨s, hs, rfl⟩ := List.mem_map.mp hj
    exact Segment.isReadable_toJson (hfits s hs) depth
  simp [jsonMembers, hsegments, Json.isReadable_bool]

end Holding

namespace Snapshot

/-- The views of every segment fit into 64 bits. -/
def Fits (s : Snapshot) : Prop := ∀ e ∈ s.holdings, e.2.Fits

instance (s : Snapshot) : Decidable s.Fits :=
  inferInstanceAs (Decidable (∀ e ∈ s.holdings, e.2.Fits))

/-- A total is read back with its bucket. -/
theorem totalOfJson?_totalToJson (e : Bucket × UInt64) : totalOfJson? (totalToJson e) = some e := by
  obtain ⟨b, n⟩ := e
  have hfields := Json.fields?_record
    [("target_location", .text b.location.name), ("audience", .text b.audience.name),
      ("views", .int n.toNat)] (by simp)
  have hviews : (Json.int n.toNat).toNatBelow? UInt64.size = some n.toNat :=
    Json.toNatBelow?_int n.toNat_lt
  simp only [List.map_cons, List.map_nil] at hfields
  simp [totalOfJson?, totalToJson, hfields, Json.toName?_text (Location.ofName?_name b.location),
    Json.toName?_text (Audience.ofName?_name b.audience), hviews]

/-- A total is written as a plain value. -/
theorem plain_totalToJson (e : Bucket × UInt64) : (totalToJson e).Plain :=
  .record (by simp [Json.Plain.text, Json.Plain.int])

/-- What a boost holds is read back with its identifier. -/
theorem entryOfJson?_entryToJson {e : String × Holding} (hfits : e.2.Fits) :
    entryOfJson? (entryToJson e) = some e := by
  obtain ⟨id, h⟩ := e
  have hid : Json.field? (("boost_id", .text id) :: h.jsonMembers) "boost_id" =
      some (some (.text id)) := Json.field?_of_mem (by simp [Holding.jsonMembers]) (by simp)
  have hrest : (("boost_id", .text id) :: h.jsonMembers).filter (·.1 ≠ "boost_id") =
      h.jsonMembers := by simp [Holding.jsonMembers]
  have hreadable : (h.jsonMembers.all fun m => m.2.isReadable entryDepth) = true :=
    List.all_eq_true.mpr (Holding.isReadable_jsonMembers hfits 121)
  have hfields : ["segments", "sealed"].mapM (Json.field? h.jsonMembers) =
      some (h.jsonMembers.map fun m => some m.2) :=
    Json.mapM_field? (by simp [Holding.jsonMembers])
  have hholding := Holding.ofFields?_jsonMembers Json.isNullOrEmpty hfits
  rw [entryToJson, entryOfJson?, Json.members?_record]
  simp only [Option.pure_def, Option.bind_eq_bind, Option.bind_some, hid, hrest, hreadable,
    hfields, hholding, Json.toText?_text, if_true]

/-- What a boost holds is written as a plain value. -/
theorem plain_entryToJson (e : String × Holding) : (entryToJson e).Plain := by
  refine .record (List.forall_mem_cons.mpr ⟨.text e.1, e.2.plain_jsonMembers⟩)

/-- A watermark is read back, also where there is none. -/
theorem watermarkOfJson?_watermarkToJson (c : Option Cursor) :
    watermarkOfJson? (some (watermarkToJson c)) = some c := by
  cases c with
  | none => rfl
  | some c =>
    have hread : c.toJson.toOption? Cursor.ofJson? = (Cursor.ofJson? c.toJson).map some := rfl
    rw [watermarkToJson, watermarkOfJson?, Option.elim_some, hread, c.ofJson?_toJson]
    rfl

/-- A watermark is written as a plain value. -/
theorem plain_watermarkToJson (c : Option Cursor) : (watermarkToJson c).Plain := by
  cases c with
  | none => exact .null
  | some c => exact c.plain_toJson

/-- A snapshot is read back if its counts fit into a word. -/
theorem ofJson?_toJson {s : Snapshot} (hfits : s.Fits) : ofJson? s.toJson = some s := by
  have hfields := Json.fields?_record
    [("window_secs", .int s.seconds.toInt), ("min_cursor", watermarkToJson s.low),
      ("max_cursor", watermarkToJson s.high), ("total_views", .array (s.totals.map totalToJson)),
      ("views_by_boost", .array (s.holdings.map entryToJson)), ("saved_at", .int s.savedAt.toInt)]
    (by simp)
  simp only [List.map_cons, List.map_nil] at hfields
  have htotals : (Json.array (s.totals.map totalToJson)).toList? totalOfJson? = some s.totals :=
    Json.toList?_map fun e _ => totalOfJson?_totalToJson e
  have hholdings : (Json.array (s.holdings.map entryToJson)).toList? entryOfJson? =
      some s.holdings := Json.toList?_map fun e he => entryOfJson?_entryToJson (hfits e he)
  simp [ofJson?, toJson, fieldNames, hfields, Json.toInt64?_int, watermarkOfJson?_watermarkToJson,
    htotals, hholdings]

/-- A snapshot is written as a plain value. -/
theorem plain_toJson (s : Snapshot) : s.toJson.Plain := by
  have htotals : (Json.array (s.totals.map totalToJson)).Plain := by
    refine .array fun j hj => ?_
    obtain ⟨e, _, rfl⟩ := List.mem_map.mp hj
    exact plain_totalToJson e
  have hholdings : (Json.array (s.holdings.map entryToJson)).Plain := by
    refine .array fun j hj => ?_
    obtain ⟨e, _, rfl⟩ := List.mem_map.mp hj
    exact plain_entryToJson e
  exact .record (by simp [Json.Plain.int, plain_watermarkToJson, htotals, hholdings])

/-- A snapshot is read back from its text. -/
theorem parse?_render {s : Snapshot} (hfits : s.Fits) : parse? s.render = some s := by
  rw [parse?, render, Json.parse?_pretty s.plain_toJson, Option.bind_some, ofJson?_toJson hfits]

end Snapshot

namespace SnapshotFile

variable {state restored : WindowState} {seconds savedAt : Int64}

/-- What is loaded of a saved window: nothing for another length, and otherwise what its snapshot
describes. -/
theorem load_save_eq (hfits : (Snapshot.capture state seconds savedAt).Fits) (other : Int64) :
    (save state seconds savedAt).load other =
      if seconds = other then
        match (Snapshot.capture state seconds savedAt).toState with
        | .ok restored => .ok (some restored)
        | .error cause => .error (.inconsistent cause)
      else .ok none := by
  have htext (text : String) : String.fromUTF8? text.toUTF8 = some text :=
    dif_pos text.isValidUTF8
  simp only [save, ofText, load, htext, Snapshot.parse?_render hfits]
  rfl

/-- A saved window is loaded as the state that its snapshot describes. -/
theorem load_save_of_toState (hfits : (Snapshot.capture state seconds savedAt).Fits)
    (hrestored : (Snapshot.capture state seconds savedAt).toState = .ok restored) :
    (save state seconds savedAt).load seconds = .ok (some restored) := by
  rw [load_save_eq hfits, if_pos rfl, hrestored]

/-- A saved window of a tidy state is loaded as a state that nobody can tell from it. -/
theorem load_save (htidy : state.Tidy)
    (hfits : ∀ id : String, ∀ h ∈ state.holdings[id]?, h.Fits) (seconds savedAt : Int64) :
    ∃ restored, (save state seconds savedAt).load seconds = .ok (some restored) ∧
      state.Agrees restored := by
  obtain ⟨restored, hrestored, hagrees⟩ := Snapshot.toState_capture htidy seconds savedAt
  exact ⟨restored, load_save_of_toState (WindowState.forall_holding_iff.mp hfits) hrestored,
    hagrees⟩

/-- The text of a tidy state with counts of 64 bits is read back as the snapshot that it is of, is
loaded as the state without the totals that are zero, is the text of what is loaded too, and is
loaded for no window of another length. -/
theorem text_canonical (htidy : state.Tidy)
    (hfits : ∀ id : String, ∀ h ∈ state.holdings[id]?, h.Fits) (seconds savedAt : Int64) :
    let s := Snapshot.capture state seconds savedAt
    Snapshot.parse? s.render = some s ∧
      (save state seconds savedAt).load seconds = .ok (some state.withoutZeros) ∧
      (Snapshot.capture state.withoutZeros seconds savedAt).render = s.render ∧
      ∀ other, other ≠ seconds → (save state seconds savedAt).load other = .ok none := by
  intro s
  have hs : s.Fits := WindowState.forall_holding_iff.mp hfits
  refine ⟨Snapshot.parse?_render hs, ?_, ?_, fun other hother => ?_⟩
  · exact load_save_of_toState hs (Snapshot.toState_capture_eq htidy seconds savedAt)
  · exact congrArg Snapshot.render (Snapshot.capture_withoutZeros state seconds savedAt)
  · rw [load_save_eq hs, if_neg hother.symm]

/-- A window with extreme watermarks and counts, a total that is zero, and a boost with a strange
name that is sealed after two segments. -/
def extremes : WindowState where
  totals := (∅ : Std.ExtTreeMap Bucket UInt64)
    |>.insert ⟨.newsfeed, .general⟩ 18446744073709551615 |>.insert ⟨.sidebar, .safe⟩ 0
  holdings := (∅ : Std.ExtTreeMap String Holding).insert "\u0000\"é\\😀\n"
    ⟨[⟨⟨.newsfeed, true⟩, ⟨-9223372036854775808, 1⟩, ⟨0, 4294967294⟩, 18446744073709551615⟩,
      ⟨⟨.sidebar, false⟩, ⟨1, 0⟩, ⟨1, 0⟩, 1⟩], true⟩
  low := some ⟨-9223372036854775808, 0⟩
  high := some ⟨9223372036854775807, 4294967295⟩

/-- A state with extreme cursors, counts and identifiers is read back from either text. -/
theorem text_canonical_extremes :
    extremes.Tidy ∧ (∀ id : String, ∀ h ∈ extremes.holdings[id]?, h.Fits) ∧
      let s := Snapshot.capture extremes 3600 (-1)
      Snapshot.parse? s.render = some s ∧
        (save extremes 3600 (-1)).load 3600 = .ok (some extremes.withoutZeros) ∧
        (Snapshot.capture extremes.withoutZeros 3600 (-1)).render = s.render ∧
        ∀ other, other ≠ 3600 → (save extremes 3600 (-1)).load other = .ok none := by
  have htidy : extremes.Tidy := by
    refine ⟨.inr ⟨_, _, rfl, rfl, by decide⟩, ?_, ?_, ?_⟩ <;>
      exact WindowState.forall_holding_iff.mpr (by decide)
  have hfits : ∀ id : String, ∀ h ∈ extremes.holdings[id]?, h.Fits :=
    WindowState.forall_holding_iff.mpr (by decide)
  exact ⟨htidy, hfits, text_canonical htidy hfits 3600 (-1)⟩

end SnapshotFile

end Pacing
