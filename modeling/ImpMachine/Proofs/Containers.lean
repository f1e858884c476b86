import ImpMachine.Decimal.Integer
import ImpMachine.Image.Container

/-!
# Containers are read back

The container of an image is read back as that image, whatever bytes come after it, and a container
that was cut short is malformed at every cut. Lists are unbounded here and the lengths of a
container are 64-bit counts, so reading back is said of the images whose lengths are such counts,
and of no others.

Readers are built in sequence, and so are the two facts about them. `Reads` says what a reader does
on the bytes that were written for a value. `Steady` says that more bytes at the end change nothing
but the outcome of a reader that ran out of bytes: a reader that accepts a part of a container
would accept the whole and leave bytes over, and `Reads` has it that none are left.
-/

namespace ImpMachine

open List

/-- Whether all lengths in an image are 64-bit counts. -/
def Image.Fits (image : Image) : Prop :=
  image.code.length ≤ Decimal.maxCount ∧ image.symbols.entries.length ≤ Decimal.maxCount ∧
    ∀ entry ∈ image.symbols.entries, entry.1.toUTF8.size ≤ Decimal.maxCount

instance (image : Image) : Decidable image.Fits :=
  inferInstanceAs (Decidable (_ ∧ _ ∧ _))

namespace Container

/-! ## Readers in sequence -/

/-- What takes a value off the front of bytes. -/
abbrev Reader (α : Type) := List UInt8 → Except ContainerFault (α × List UInt8)

variable {α β : Type} {r : Reader α} {k : α → Reader β} {bytes later : List UInt8} {c d : Prop}
  {a : α} {b : β}

/-- One reader and, on the bytes that it leaves, one that depends on its value. -/
def Reader.andThen (r : Reader α) (k : α → Reader β) : Reader β := fun bytes => do
  let (a, rest) ← r bytes
  k a rest

/-- On bytes that begin with these a reader takes them as the value if the condition holds, and
meets a number beyond its width if not. -/
structure Reads (r : Reader α) (bytes : List UInt8) (c : Prop) (a : α) : Prop where
  value : c → ∀ rest, r (bytes ++ rest) = .ok (a, rest)
  refusal : ¬c → ∀ rest, r (bytes ++ rest) = .error .badNumber

/-- What is written in sequence is read in sequence. -/
theorem Reads.andThen (h : Reads r bytes c a) (h' : Reads (k a) later d b) :
    Reads (r.andThen k) (bytes ++ later) (c ∧ d) b where
  value := by
    rintro ⟨hc, hd⟩ rest
    unfold Reader.andThen
    rw [append_assoc, h.value hc]
    exact h'.value hd rest
  refusal := by
    intro hcd rest
    unfold Reader.andThen
    rw [append_assoc]
    by_cases hc : c
    · have hd : ¬d := fun hd => hcd ⟨hc, hd⟩
      rw [h.value hc]
      exact h'.refusal hd rest
    · rw [h.refusal hc]
      rfl

/-- Unless a reader ran out of bytes, more of them are only left over. -/
def Steady (r : Reader α) : Prop :=
  ∀ bytes more, r bytes = .error .endsEarly ∨
    r (bytes ++ more) = (r bytes).map fun (a, rest) => (a, rest ++ more)

/-- Steady readers in sequence are steady. -/
theorem Steady.andThen (h : Steady r) (h' : ∀ a, Steady (k a)) : Steady (r.andThen k) := by
  intro bytes more
  unfold Reader.andThen
  rcases h bytes more with hends | hmore
  · exact .inl (by rw [hends]; rfl)
  · rw [hmore]
    cases r bytes with
    | error fault => exact .inr rfl
    | ok read => exact h' read.1 read.2 more

/-! ## Numbers -/

/-- How many numbers fit into one byte up to `lastMax` after `left` full groups. -/
def capacity (lastMax : Nat) : Nat → Nat
  | 0 => lastMax + 1
  | left + 1 => capacity lastMax left * 128

theorem capacity_pos (lastMax left : Nat) : 0 < capacity lastMax left := by
  induction left with
  | zero => exact Nat.succ_pos _
  | succ left ih => exact Nat.mul_pos ih (by decide)

theorem toNat_ofNat_of_lt {n : Nat} (h : n < 256) : (UInt8.ofNat n).toNat = n := by
  rw [UInt8.toNat_ofNat']
  omega

/-- A byte below 128 ends the number. -/
theorem readGroups_last {n : Nat} (h : n < 128) (lastMax left : Nat) (rest : List UInt8) :
    readGroups lastMax (left + 1) (UInt8.ofNat n :: rest) =
      if left = 0 ∧ lastMax < n then .error .badNumber else .ok (n, rest) := by
  rw [readGroups, toNat_ofNat_of_lt (by omega), if_pos h]

/-- From 128 on, more groups follow. -/
theorem readGroups_more {low : Nat} (h : low < 128) (lastMax left : Nat) (rest : List UInt8) :
    readGroups lastMax (left + 1) (UInt8.ofNat (low + 128) :: rest) =
      (readGroups lastMax left rest).map fun (high, rest) => (low + 128 * high, rest) := by
  rw [readGroups, toNat_ofNat_of_lt (by omega), if_neg (by omega), Nat.add_sub_cancel]

/-- Of a number beyond a group, the higher part has one group less. -/
theorem reads_groups {lastMax : Nat} (hlast : lastMax < 128) (left n : Nat) :
    Reads (readGroups lastMax (left + 1)) (writeNumber n) (n < capacity lastMax left) n := by
  have hpos := capacity_pos lastMax left
  have hlow : n % 128 < 128 := Nat.mod_lt n (by decide)
  rw [writeNumber]
  induction left generalizing n with
  | zero =>
    have hcapacity : capacity lastMax 0 = lastMax + 1 := rfl
    split
    · rename_i hsmall
      constructor
      · intro hfits rest
        rw [singleton_append, readGroups_last hsmall, if_neg (by omega)]
      · intro hfits rest
        rw [singleton_append, readGroups_last hsmall, if_pos ⟨rfl, by omega⟩]
    · constructor
      · intro hfits rest
        omega
      · intro _ rest
        rw [cons_append, readGroups_more hlow]
        rfl
  | succ left ih =>
    have hcapacity : capacity lastMax (left + 1) = capacity lastMax left * 128 := rfl
    have hpos := capacity_pos lastMax left
    split
    · rename_i hsmall
      constructor
      · intro _ rest
        rw [singleton_append, readGroups_last hsmall, if_neg (by omega)]
      · intro hfits rest
        omega
    · have hfits : n / 128 < capacity lastMax left ↔ n < capacity lastMax (left + 1) :=
        Nat.div_lt_iff_lt_mul (by decide)
      have hhigh := ih (n / 128) hpos (Nat.mod_lt _ (by decide))
      rw [← writeNumber] at hhigh
      constructor
      · intro h rest
        rw [cons_append, readGroups_more hlow, hhigh.value (hfits.2 h)]
        simp only [Except.map, Nat.mod_add_div]
      · intro h rest
        rw [cons_append, readGroups_more hlow, hhigh.refusal fun h' => h (hfits.1 h')]
        rfl

theorem reads_length (n : Nat) :
    Reads (readNumber lengthWidth) (writeNumber n) (n ≤ Decimal.maxCount) n := by
  have hcapacity : capacity 1 9 = Decimal.maxCount + 1 := by decide
  have h := reads_groups (show 1 < 128 by decide) 9 n
  rwa [hcapacity, Nat.lt_succ_iff] at h

theorem reads_version : Reads (readNumber versionWidth) (writeNumber formatVersion) True 1 := by
  have hfits : (1 < capacity 3 2) = True := by decide
  have h := reads_groups (show 3 < 128 by decide) 2 1
  rwa [hfits] at h

theorem steady_groups (lastMax left : Nat) : Steady (readGroups lastMax left) := by
  induction left with
  | zero => exact fun bytes more => .inr rfl
  | succ left ih =>
    rintro (_ | ⟨byte, rest⟩) more
    · exact .inl rfl
    · simp only [readGroups, cons_append]
      split
      · right
        split <;> rfl
      · rcases ih rest more with hends | hmore
        · exact .inl (by rw [hends]; rfl)
        · right
          rw [hmore]
          cases readGroups lastMax left rest <;> rfl

/-! ## Bytes and names -/

/-- Takes the given number of bytes. -/
def takeBytes (length : Nat) : Reader (List UInt8) := fun rest =>
  if rest.length < length then .error .endsEarly else .ok (rest.take length, rest.drop length)

theorem readBytes_eq : readBytes = Reader.andThen (readNumber lengthWidth) takeBytes := rfl

theorem reads_takeBytes (bytes : List UInt8) : Reads (takeBytes bytes.length) bytes True bytes where
  value _ rest := by simp [takeBytes]
  refusal h := absurd trivial h

theorem steady_takeBytes (length : Nat) : Steady (takeBytes length) := by
  intro bytes more
  unfold takeBytes
  split
  · exact .inl rfl
  · rename_i henough
    have henough : length ≤ bytes.length := Nat.not_lt.1 henough
    have hmore : ¬(bytes ++ more).length < length := by
      rw [length_append]
      omega
    right
    rw [if_neg hmore, take_append_of_le_length henough, drop_append_of_le_length henough]
    rfl

/-- Bytes are read back if their length is a 64-bit count. -/
theorem reads_bytes (bytes : List UInt8) :
    Reads readBytes (writeBytes bytes) (bytes.length ≤ Decimal.maxCount ∧ True) bytes :=
  readBytes_eq ▸ (reads_length bytes.length).andThen (reads_takeBytes bytes)

theorem steady_bytes : Steady readBytes :=
  readBytes_eq ▸ (steady_groups _ _).andThen steady_takeBytes

/-- The bytes of an array from an index on, behind those already taken. -/
theorem toList_loop_eq (array : ByteArray) (i : Nat) (taken : List UInt8) :
    ByteArray.toList.loop array i taken = taken.reverse ++ array.data.toList.drop i := by
  fun_induction ByteArray.toList.loop array i taken with
  | case1 i taken hi ih =>
    have hget : array.get! i = array.data.toList.get ⟨i, hi⟩ := by
      exact getElem!_pos array.data i hi
    rw [ih, hget, reverse_cons, append_assoc, drop_eq_getElem_cons hi]
    rfl
  | case2 i taken hi =>
    have hdone : array.data.toList.length ≤ i := Nat.not_lt.1 hi
    rw [drop_eq_nil_of_le hdone, append_nil]

theorem toList_eq_data (array : ByteArray) : array.toList = array.data.toList :=
  toList_loop_eq array 0 []

/-- Takes no bytes, and gives the text that the ones before stand for. -/
def decodeName (name : List UInt8) : Reader String := fun rest =>
  match String.fromUTF8? ⟨name.toArray⟩ with
  | some name => .ok (name, rest)
  | none => .error .badName

theorem readName_eq : readName = Reader.andThen readBytes decodeName := rfl

theorem reads_decodeName (name : String) : Reads (decodeName name.toUTF8.toList) [] True name where
  value _ rest := by
    have hbytes : (⟨name.toUTF8.toList.toArray⟩ : ByteArray) = name.toByteArray := by
      rw [toList_eq_data]
      rfl
    have hname : String.fromUTF8? name.toByteArray = some name := by
      unfold String.fromUTF8?
      rw [dif_pos name.isValidUTF8]
      rfl
    simp only [decodeName, hbytes, hname, nil_append]
  refusal h := absurd trivial h

theorem steady_decodeName (name : List UInt8) : Steady (decodeName name) := by
  intro bytes more
  unfold decodeName
  right
  split <;> rfl

/-! ## Symbols -/

/-- Takes the address of a symbol. -/
def takeAddress (name : String) : Reader (String × UInt8)
  | addr :: rest => .ok ((name, addr), rest)
  | [] => .error .endsEarly

theorem readSymbol_eq : readSymbol = Reader.andThen readName takeAddress := by
  funext bytes
  unfold readSymbol Reader.andThen
  congr

theorem reads_symbol (entry : String × UInt8) :
    Reads readSymbol (writeSymbol entry) (entry.1.toUTF8.size ≤ Decimal.maxCount) entry := by
  have hname := (reads_bytes entry.1.toUTF8.toList).andThen (reads_decodeName entry.1)
  have haddr : Reads (takeAddress entry.1) [entry.2] True entry :=
    ⟨fun _ rest => rfl, fun h => absurd trivial h⟩
  have hlength : entry.1.toUTF8.toList.length = entry.1.toUTF8.size := by
    rw [toList_eq_data]
    rfl
  have h := hname.andThen haddr
  rw [← readName_eq, ← readSymbol_eq, hlength, append_nil] at h
  simpa only [writeSymbol, and_true] using h

theorem steady_symbol : Steady readSymbol := by
  have haddr (name : String) : Steady (takeAddress name) := by
    rintro (_ | ⟨addr, rest⟩) more
    · exact .inl rfl
    · exact .inr rfl
  rw [readSymbol_eq, readName_eq]
  exact (steady_bytes.andThen steady_decodeName).andThen haddr

theorem readSymbols_succ (table : Symbols) (count : Nat) :
    readSymbols table (count + 1) =
      Reader.andThen readSymbol fun entry => readSymbols (table.insert entry.1 entry.2) count := rfl

/-- Entries are read back into the table. -/
theorem reads_symbols (table : Symbols) (entries : List (String × UInt8)) :
    Reads (readSymbols table entries.length) (entries.flatMap writeSymbol)
      (∀ entry ∈ entries, entry.1.toUTF8.size ≤ Decimal.maxCount)
      (entries.foldl (fun table entry => table.insert entry.1 entry.2) table) := by
  induction entries generalizing table with
  | nil => exact ⟨fun _ rest => rfl, fun h => absurd (forall_mem_nil _) h⟩
  | cons entry entries ih =>
    rw [length_cons, readSymbols_succ, flatMap_cons, forall_mem_cons]
    exact (reads_symbol entry).andThen (ih (table.insert entry.1 entry.2))

theorem steady_symbols (table : Symbols) (count : Nat) : Steady (readSymbols table count) := by
  induction count generalizing table with
  | zero => exact fun bytes more => .inr rfl
  | succ count ih =>
    rw [readSymbols_succ]
    exact steady_symbol.andThen fun entry => ih _

end Container

/-! ## Tables from their entries -/

namespace Symbols

/-- A name behind all others goes to the end. -/
theorem insertInto_of_lt {name : String} {addr : UInt8} {entries : List (String × UInt8)}
    (h : ∀ entry ∈ entries, entry.1 < name) :
    insertInto name addr entries = entries ++ [(name, addr)] := by
  induction entries with
  | nil => rfl
  | cons entry entries ih =>
    have hlt : entry.1 < name := h entry (mem_cons_self ..)
    have hnot : ¬name < entry.1 := fun h => String.lt_irrefl _ (String.lt_trans hlt h)
    have hne : name ≠ entry.1 := fun heq => String.lt_irrefl _ (heq ▸ hlt)
    rw [insertInto, if_neg hnot, if_neg hne, ih fun x hx => h x (mem_cons_of_mem _ hx)]
    rfl

/-- Entries in order go to the end of the table one after the other. -/
theorem foldl_insert_entries (table : Symbols) (entries : List (String × UInt8))
    (h : (table.entries ++ entries).Pairwise fun a b => a.1 < b.1) :
    (entries.foldl (fun table entry => table.insert entry.1 entry.2) table).entries =
      table.entries ++ entries := by
  induction entries generalizing table with
  | nil => simp
  | cons entry entries ih =>
    have hlt : ∀ x ∈ table.entries, x.1 < entry.1 := fun x hx =>
      (pairwise_append.1 h).2.2 x hx entry (mem_cons_self ..)
    have hinsert : (table.insert entry.1 entry.2).entries = table.entries ++ [entry] :=
      insertInto_of_lt hlt
    have hmoved : table.entries ++ entry :: entries =
        (table.insert entry.1 entry.2).entries ++ entries := by
      rw [hinsert, append_assoc]
      rfl
    rw [foldl_cons, hmoved]
    exact ih _ (hmoved ▸ h)

/-- A table is that of its entries. -/
theorem foldl_insert_empty (table : Symbols) :
    table.entries.foldl (fun table entry => table.insert entry.1 entry.2) empty = table := by
  have hentries := foldl_insert_entries empty table.entries table.ordered
  cases table
  rw [mk.injEq]
  exact hentries

end Symbols

/-! ## Containers -/

namespace Container

/-- Reads a container's version and image and keeps what comes after. -/
def readImage : Reader (Nat × Image) :=
  Reader.andThen (readNumber versionWidth) fun version =>
    Reader.andThen readBytes fun code =>
      Reader.andThen (readNumber lengthWidth) fun count =>
        Reader.andThen (readSymbols .empty count) fun symbols rest =>
          .ok ((version, ⟨code, symbols⟩), rest)

theorem read_eq (bytes : List UInt8) : read bytes = (readImage bytes).map Prod.fst := by
  unfold read readImage Reader.andThen
  cases readNumber versionWidth bytes with
  | error => rfl
  | ok version =>
    change (readBytes version.2 >>= _) = Except.map _ (readBytes version.2 >>= _)
    cases readBytes version.2 with
    | error => rfl
    | ok code =>
      change (readNumber lengthWidth code.2 >>= _) =
        Except.map _ (readNumber lengthWidth code.2 >>= _)
      cases readNumber lengthWidth code.2 with
      | error => rfl
      | ok count =>
        change (readSymbols .empty count.1 count.2 >>= _) =
          Except.map _ (readSymbols .empty count.1 count.2 >>= _)
        cases readSymbols .empty count.1 count.2 <;> rfl

/-- **An image is read back if its lengths fit.** -/
theorem reads_image (image : Image) : Reads readImage image.pack image.Fits (1, image) := by
  have hresult : Reads (fun rest => .ok ((1, image), rest)) [] True (1, image) :=
    ⟨fun _ rest => rfl, fun h => absurd trivial h⟩
  have hsymbols := reads_symbols .empty image.symbols.entries
  rw [Symbols.foldl_insert_empty] at hsymbols
  have hcount : Reads (Reader.andThen (readNumber lengthWidth) fun count =>
      Reader.andThen (readSymbols .empty count) fun symbols rest =>
        .ok ((1, ⟨image.code, symbols⟩), rest)) _ _ (1, image) :=
    (reads_length image.symbols.entries.length).andThen (hsymbols.andThen hresult)
  have h : Reads readImage _ _ (1, image) :=
    reads_version.andThen ((reads_bytes image.code).andThen hcount)
  simpa only [Image.pack, Image.Fits, append_assoc, append_nil, and_true, true_and]
    using h

/-- **More bytes behind a container are only left over.** -/
theorem steady_image : Steady readImage :=
  (steady_groups _ _).andThen fun _ => steady_bytes.andThen fun _ =>
    (steady_groups _ _).andThen fun _ => (steady_symbols _ _).andThen fun _ _ _ => .inr rfl

/-- A steady reader that takes the whole of some bytes accepts no part of them. -/
theorem Reads.cut {α : Type} {r : Reader α} {bytes part : List UInt8} {c : Prop} {a : α}
    (h : Reads r bytes c a) (hsteady : Steady r) (hpart : part <+: bytes) (hne : part ≠ bytes) :
    ∃ fault, r part = .error fault ∧ (c → fault = .endsEarly) := by
  obtain ⟨more, rfl⟩ := hpart
  have hmore : more ≠ [] := fun hnil => hne (by rw [hnil, append_nil])
  rcases hsteady part more with hends | hall
  · exact ⟨_, hends, fun _ => rfl⟩
  · have hvalue := h.value
    have hrefusal := h.refusal
    cases hr : r part with
    | error fault =>
      refine ⟨fault, rfl, fun hc => ?_⟩
      have hok := hvalue hc []
      rw [append_nil, hall, hr] at hok
      cases hok
    | ok read =>
      exfalso
      by_cases hc : c
      · have hok := hvalue hc []
        rw [append_nil, hall, hr] at hok
        injection hok with hok
        have hrest : read.2 ++ more = [] := congrArg Prod.snd hok
        exact hmore (append_eq_nil_iff.1 hrest).2
      · have hbad := hrefusal hc []
        rw [append_nil, hall, hr] at hbad
        cases hbad

end Container

/-- **Containers are read back and cuts are noticed.** The container of an image is read back as the
image exactly if the lengths in it are 64-bit counts, whatever follows it, and every part of a
container up to a point before its end is malformed; where it could be read back, for want of
bytes. -/
theorem unpack_pack_or_cut (image : Image) :
    (∀ rest, Image.unpack (image.pack ++ rest) = .ok image ↔ image.Fits) ∧
      ∀ part, part <+: image.pack → part ≠ image.pack →
        ∃ fault, Image.unpack part = .error (.malformed fault) ∧
          (image.Fits → fault = .endsEarly) := by
  have hreads := Container.reads_image image
  constructor
  · intro rest
    by_cases hfits : image.Fits
    · refine iff_of_true ?_ hfits
      rw [Image.unpack, Container.read_eq, hreads.value hfits]
      rfl
    · refine iff_of_false (fun hok => ?_) hfits
      rw [Image.unpack, Container.read_eq, hreads.refusal hfits] at hok
      cases hok
  · intro part hpart hne
    obtain ⟨fault, hfault, hends⟩ := hreads.cut Container.steady_image hpart hne
    refine ⟨fault, ?_, hends⟩
    rw [Image.unpack, Container.read_eq, hfault]
    rfl

/-- Code whose length takes two bytes, and a name of one letter and two bytes. -/
def boundary : Image := ⟨List.replicate 128 0, Symbols.empty.insert "é" 7⟩

/-- A cut inside of the length is noticed. -/
theorem unpack_pack_or_cut_boundary :
    boundary.Fits ∧ Image.unpack (boundary.pack ++ [255]) = .ok boundary ∧
      Image.unpack (boundary.pack.take 2) = .error (.malformed .endsEarly) := by
  have hfits : boundary.Fits := by decide +kernel
  have hlength : 2 < boundary.pack.length := by
    simp only [Image.pack, Container.writeBytes, length_append, boundary,
      length_replicate]
    omega
  have hcut : boundary.pack.take 2 ≠ boundary.pack := fun h => by
    have := congrArg List.length h
    rw [length_take] at this
    omega
  obtain ⟨hback, hparts⟩ := unpack_pack_or_cut boundary
  obtain ⟨fault, hfault, hends⟩ := hparts _ (List.take_prefix 2 boundary.pack) hcut
  exact ⟨hfits, (hback [255]).2 hfits, hends hfits ▸ hfault⟩

end ImpMachine
