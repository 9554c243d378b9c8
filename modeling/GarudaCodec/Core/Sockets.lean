import GarudaCodec.Foundation.Descriptors

/-! # `io_stream.rs` and `socket.rs`: streams and their descriptors

Every stream and listener but those of stdin and stdout has a descriptor that is closed when it is
dropped.  What the kernel answers is a parameter of every function that asks it, and all it promises
is that a new descriptor was not open before (`Kernel.Sound`).  Two answers are not looked after: a
socket stays open when its interface does not exist, and a `dup` that fails makes a stream without a
descriptor.
-/

namespace GarudaCodec.Core

open GarudaCodec.Foundation.Descriptors

abbrev RawFd := Int

/-- A connection or a socket, which descriptors refer to. -/
abbrev Description := Nat

abbrev Descriptors := Table RawFd Description

/-- `io::Error`, as far as it is told apart. -/
inductive IoError where
  | os (code : Int)
  | invalidInput (message : List Char)
  | other (message : List Char)
deriving DecidableEq, Repr

/-- The code behind `ErrorKind::NotFound`. -/
def enoent : Int := 2

structure SockaddrLl where
  sllFamily : UInt16
  sllProtocol : UInt16
  sllIfindex : Int32
  sllHatype : UInt16
  sllPkttype : UInt8
  sllHalen : UInt8
  sllAddr : Vector UInt8 8
deriving DecidableEq, Repr

/-- What the kernel answers while one function runs. -/
structure Kernel where
  tcpConnect : List Char → Except IoError (RawFd × Description)
  unixConnect : List Char → Except IoError (RawFd × Description)
  tcpListen : List Char → Except IoError (RawFd × Description)
  unixListen : List Char → Except IoError (RawFd × Description)
  removeFile : List Char → Except Int Unit
  accept : RawFd → Except IoError (RawFd × Description)
  socket : Except Int (RawFd × Description)
  ifNameToIndex : List Char → Except Int UInt32
  setReceiveTimeout : RawFd → Int × Int → Except Int Unit
  bind : RawFd → SockaddrLl → Except Int Unit
  dup : RawFd → Except Int RawFd

/-- A descriptor that was not open, for something that was not open either. -/
structure Fresh (table : Descriptors) (opened : RawFd × Description) : Prop where
  nonneg : 0 ≤ opened.1
  unused : table opened.1 = none
  unopened : ¬IsOpen table opened.2

/-- The kernel returns fresh descriptors, and duplicates only those that are open. -/
structure Kernel.Sound (kernel : Kernel) (table : Descriptors) : Prop where
  tcpConnect : ∀ {address opened}, kernel.tcpConnect address = .ok opened → Fresh table opened
  unixConnect : ∀ {path opened}, kernel.unixConnect path = .ok opened → Fresh table opened
  tcpListen : ∀ {address opened}, kernel.tcpListen address = .ok opened → Fresh table opened
  unixListen : ∀ {path opened}, kernel.unixListen path = .ok opened → Fresh table opened
  accept : ∀ {fd opened}, kernel.accept fd = .ok opened → Fresh table opened
  socket : ∀ {opened}, kernel.socket = .ok opened → Fresh table opened
  dup : ∀ {fd copied}, kernel.dup fd = .ok copied →
    0 ≤ copied ∧ table copied = none ∧ ∃ description, table fd = some description

/-- What `dup` does to the table. -/
def duplicate (table : Descriptors) (fd copied : RawFd) : Descriptors :=
  Function.update table copied (table fd)

/-! ## `socket.rs` -/

structure RawSocket where
  socketFd : RawFd
  sockaddr : SockaddrLl
deriving DecidableEq, Repr

structure RawSocketReader where
  socket : RawSocket
deriving DecidableEq, Repr

namespace RawSocket

/-- The address of an interface: `AF_PACKET`, and `ETH_P_ALL` in network byte order. -/
def sockaddrOf (ifIndex : UInt32) : SockaddrLl where
  sllFamily := 17
  sllProtocol := 0x0300
  sllIfindex := ifIndex.toInt32
  sllHatype := 0
  sllPkttype := 0
  sllHalen := 0
  sllAddr := .replicate 8 0

def new (kernel : Kernel) (interfaceName : List Char) (table : Descriptors) :
    Except IoError RawSocket × Descriptors :=
  match kernel.socket with
  | .error code => (.error (.os code), table)
  | .ok (socketFd, description) =>
    let table := table.insert socketFd description
    -- there is no `RawSocket` yet, so nothing closes the socket
    if Char.ofNat 0 ∈ interfaceName then
      (.error (.other "failed to convert interface name".toList), table)
    else
      match kernel.ifNameToIndex interfaceName with
      | .error code => (.error (.os code), table)
      | .ok ifIndex => (.ok { socketFd, sockaddr := sockaddrOf ifIndex }, table)

/-- `Drop`.  A `close` that fails is only printed. -/
def drop (socket : RawSocket) (table : Descriptors) : Descriptors := table.close socket.socketFd

def bind (kernel : Kernel) (socket : RawSocket) (table : Descriptors) :
    Except IoError RawSocketReader × Descriptors :=
  match kernel.setReceiveTimeout socket.socketFd (1, 0) with
  | .error code => (.error (.os code), socket.drop table)
  | .ok () =>
    match kernel.bind socket.socketFd socket.sockaddr with
    | .error code => (.error (.os code), socket.drop table)
    | .ok () => (.ok ⟨socket⟩, table)

/-- `Clone` cannot fail, and does not look at what `dup` returns. -/
def clone (kernel : Kernel) (socket : RawSocket) (table : Descriptors) : RawSocket × Descriptors :=
  match kernel.dup socket.socketFd with
  | .error _ => ({ socket with socketFd := -1 }, table)
  | .ok copied => ({ socket with socketFd := copied }, duplicate table socket.socketFd copied)

/-- The descriptor, if it is one. -/
def fds (socket : RawSocket) : List RawFd :=
  if socket.socketFd < 0 then [] else [socket.socketFd]

end RawSocket

/-! ## `io_stream.rs` -/

inductive OutputStream where
  | stdout
  | tcp (fd : RawFd)
  | unix (fd : RawFd)
  | rawSocket (socket : RawSocket)
deriving DecidableEq, Repr

inductive InputStream where
  | stdin
  | tcp (fd : RawFd)
  | unix (fd : RawFd)
  | rawSocket (reader : RawSocketReader)
deriving DecidableEq, Repr

inductive Listener where
  | stdin (isClosed : Bool)
  | tcp (fd : RawFd)
  | unix (fd : RawFd)
  | rawSocket (interfaceName : List Char)
deriving DecidableEq, Repr

def tcpUriPrefix : List Char := ['t', 'c', 'p', ':', '/', '/']
def unixSocketUriPrefix : List Char := ['u', 'n', 'i', 'x', ':', '/', '/']
def afPacketSocketUriPrefix : List Char :=
  ['a', 'f', '_', 'p', 'a', 'c', 'k', 'e', 't', ':', '/', '/']

/-- A stream for a call of the standard library that opens one. -/
def openWith {α : Type} (stream : RawFd → α) (call : Except IoError (RawFd × Description))
    (table : Descriptors) : Except IoError α × Descriptors :=
  match call with
  | .error error => (.error error, table)
  | .ok (fd, description) => (.ok (stream fd), table.insert fd description)

namespace OutputStream

def fromUri (kernel : Kernel) (uri : List Char) (table : Descriptors) :
    Except IoError OutputStream × Descriptors :=
  if uri = ['-'] then (.ok .stdout, table)
  else if let some addr := uri.dropPrefix? tcpUriPrefix then
    openWith .tcp (kernel.tcpConnect addr) table
  else if let some addr := uri.dropPrefix? unixSocketUriPrefix then
    openWith .unix (kernel.unixConnect addr) table
  else if let some interfaceName := uri.dropPrefix? afPacketSocketUriPrefix then
    match RawSocket.new kernel interfaceName table with
    | (.error error, table) => (.error error, table)
    | (.ok socket, table) => (.ok (.rawSocket socket), table)
  else (.error (.invalidInput ("Unsupported output URI: ".toList ++ uri)), table)

/-- A stream with a duplicate of this descriptor, as the standard library makes it. -/
def cloneWith (stream : RawFd → OutputStream) (kernel : Kernel) (fd : RawFd)
    (table : Descriptors) : Except IoError OutputStream × Descriptors :=
  match kernel.dup fd with
  | .error code => (.error (.os code), table)
  | .ok copied => (.ok (stream copied), duplicate table fd copied)

def tryClone (kernel : Kernel) (stream : OutputStream) (table : Descriptors) :
    Except IoError OutputStream × Descriptors :=
  match stream with
  | .stdout => (.ok .stdout, table)
  | .tcp fd => cloneWith .tcp kernel fd table
  | .unix fd => cloneWith .unix kernel fd table
  | .rawSocket socket =>
    let (cloned, table) := socket.clone kernel table
    (.ok (.rawSocket cloned), table)

def drop (stream : OutputStream) (table : Descriptors) : Descriptors :=
  match stream with
  | .stdout => table
  | .tcp fd | .unix fd => table.close fd
  | .rawSocket socket => socket.drop table

def fds : OutputStream → List RawFd
  | .stdout => []
  | .tcp fd | .unix fd => [fd]
  | .rawSocket socket => socket.fds

end OutputStream

namespace InputStream

def drop (stream : InputStream) (table : Descriptors) : Descriptors :=
  match stream with
  | .stdin => table
  | .tcp fd | .unix fd => table.close fd
  | .rawSocket reader => reader.socket.drop table

def fds : InputStream → List RawFd
  | .stdin => []
  | .tcp fd | .unix fd => [fd]
  | .rawSocket reader => reader.socket.fds

end InputStream

namespace Listener

def fromUri (kernel : Kernel) (uri : List Char) (table : Descriptors) :
    Except IoError Listener × Descriptors :=
  if uri = ['-'] then (.ok (.stdin false), table)
  else if let some addr := uri.dropPrefix? tcpUriPrefix then
    openWith .tcp (kernel.tcpListen addr) table
  else if let some path := uri.dropPrefix? unixSocketUriPrefix then
    match kernel.removeFile path with
    | .error code =>
      if code = enoent then openWith .unix (kernel.unixListen path) table
      else (.error (.os code), table)
    | .ok () => openWith .unix (kernel.unixListen path) table
  else if let some interfaceName := uri.dropPrefix? afPacketSocketUriPrefix then
    (.ok (.rawSocket interfaceName), table)
  else (.error (.invalidInput ("Unsupported input URI: ".toList ++ uri)), table)

/-- `Incoming::next`, with the listener it leaves. -/
def next (kernel : Kernel) (listener : Listener) (table : Descriptors) :
    Option (Except IoError InputStream) × Listener × Descriptors :=
  match listener with
  | .stdin isClosed =>
    if isClosed then (none, listener, table) else (some (.ok .stdin), .stdin true, table)
  | .tcp fd =>
    let (result, table) := openWith .tcp (kernel.accept fd) table
    (some result, listener, table)
  | .unix fd =>
    let (result, table) := openWith .unix (kernel.accept fd) table
    (some result, listener, table)
  | .rawSocket interfaceName =>
    match RawSocket.new kernel interfaceName table with
    | (.error error, table) => (some (.error error), listener, table)
    | (.ok socket, table) =>
      match socket.bind kernel table with
      | (.error error, table) => (some (.error error), listener, table)
      | (.ok reader, table) => (some (.ok (.rawSocket reader)), listener, table)

def fds : Listener → List RawFd
  | .stdin _ | .rawSocket _ => []
  | .tcp fd | .unix fd => [fd]

end Listener

/-! ## Accounts -/

/-- The descriptors that have been opened and not closed, none of which is negative. -/
structure Account (base : Descriptors) (fds : List RawFd) (table : Descriptors) : Prop
    extends Owns base fds table where
  nonneg : ∀ fd < 0, table fd = none

variable {base table : Descriptors} {fds : List RawFd} {kernel : Kernel}

namespace Account

theorem nothing (nonneg : ∀ fd < 0, base fd = none) : Account base [] base :=
  ⟨.nothing base, nonneg⟩

theorem perm {reordered : List RawFd} (account : Account base fds table)
    (same : fds.Perm reordered) : Account base reordered table :=
  ⟨account.toOwns.perm same, account.nonneg⟩

theorem insert {fd : RawFd} (account : Account base fds table) (nonneg : 0 ≤ fd)
    (unused : table fd = none) (description : Description) :
    Account base (fd :: fds) (table.insert fd description) where
  toOwns := account.toOwns.insert unused description
  nonneg := by
    intro other negative
    rw [Table.insert_of_ne (Int.ne_of_lt (Int.lt_of_lt_of_le negative nonneg))]
    exact account.nonneg other negative

theorem closeAll {dropped : List RawFd} (account : Account base (dropped ++ fds) table) :
    Account base fds (table.closeAll dropped) where
  toOwns := account.toOwns.closeAll
  nonneg := by
    intro fd negative
    rw [Table.closeAll_of_not_mem, account.nonneg fd negative]
    intro member
    obtain ⟨description, refers⟩ := account.refers fd (List.mem_append_left fds member)
    rw [account.nonneg fd negative] at refers
    cases refers

/-- Closing what is held until something has happened, when it happens. -/
theorem release {held : List RawFd} {happened happens : Prop} [Decidable happened]
    [Decidable happens] (stays : happened → happens)
    (account : Account base ((if happened then [] else held) ++ fds) table) :
    Account base ((if happens then [] else held) ++ fds)
      (if ¬happened ∧ happens then table.closeAll held else table) := by
  by_cases before : happened
  · simpa [before, stays before] using account
  · rw [if_neg before] at account
    by_cases now : happens
    · simpa [before, now] using account.closeAll
    · simpa [before, now] using account

end Account

/-- What a function has done that opens something, or fails and leaves these descriptors. -/
inductive Opened (table : Descriptors) : List RawFd → Descriptors → Prop
  | nothing : Opened table [] table
  | socket {opened : RawFd × Description} :
      Fresh table opened → Opened table [opened.1] (table.insert opened.1 opened.2)

/-- A new descriptor is for something new. -/
theorem Opened.new {table' : Descriptors} {new : List RawFd} (opened : Opened table new table')
    {fd : RawFd} (member : fd ∈ new) :
    ∃ description, table' fd = some description ∧ ¬IsOpen table description := by
  cases opened with
  | nothing => cases member
  | @socket entry fresh =>
    rw [List.mem_singleton.mp member]
    exact ⟨entry.2, Table.insert_self, fresh.unopened⟩

/-- What a stream has that is a clone of one with these descriptors. -/
inductive Cloned (table : Descriptors) (fds : List RawFd) : List RawFd → Descriptors → Prop
  | nothing : Cloned table fds [] table
  | duplicate {fd copied : RawFd} {description : Description} :
      fds = [fd] → table fd = some description → 0 ≤ copied → table copied = none →
      Cloned table fds [copied] (table.insert copied description)

theorem Cloned.keeps {table' : Descriptors} {source new : List RawFd}
    (cloned : Cloned table source new table') {fd : RawFd} {description : Description}
    (refers : table fd = some description) : table' fd = some description := by
  cases cloned with
  | nothing => exact refers
  | @duplicate original copied _ held copies nonneg unused =>
    have different : fd ≠ copied := by
      intro same
      rw [same, unused] at refers
      cases refers
    rw [Table.insert_of_ne different, refers]

/-- A clone is for what the stream itself is for. -/
theorem Cloned.new {table' : Descriptors} {source new : List RawFd}
    (cloned : Cloned table source new table') {fd : RawFd} (member : fd ∈ new) :
    ∃ original ∈ source, table' fd = table original := by
  cases cloned with
  | nothing => cases member
  | @duplicate original copied description held copies nonneg unused =>
    rw [List.mem_singleton.mp member, held]
    exact ⟨original, List.mem_singleton_self original, by rw [Table.insert_self, copies]⟩

theorem Account.opened {table' : Descriptors} {new : List RawFd}
    (account : Account base fds table) (opened : Opened table new table') :
    Account base (new ++ fds) table' := by
  cases opened with
  | nothing => exact account
  | socket fresh => exact account.insert fresh.nonneg fresh.unused _

theorem Account.cloned {table' : Descriptors} {source new : List RawFd}
    (account : Account base fds table) (cloned : Cloned table source new table') :
    Account base (new ++ fds) table' := by
  cases cloned with
  | nothing => exact account
  | duplicate held refers nonneg unused => exact account.insert nonneg unused _

theorem Opened.close {table' : Descriptors} {fd : RawFd} (opened : Opened table [fd] table') :
    table'.close fd = table := by
  cases opened with
  | socket fresh => exact Table.close_insert fresh.unused

/-- What was open stays as it was. -/
theorem Opened.keeps {table' : Descriptors} {new : List RawFd} (opened : Opened table new table')
    {fd : RawFd} {description : Description} (refers : table fd = some description) :
    table' fd = some description := by
  cases opened with
  | nothing => exact refers
  | @socket entry fresh =>
    have different : fd ≠ entry.1 := by
      intro same
      rw [same, fresh.unused] at refers
      cases refers
    rw [Table.insert_of_ne different, refers]

theorem Account.nonneg_of_open {fd : RawFd} {description : Description}
    (account : Account base fds table) (refers : table fd = some description) : 0 ≤ fd := by
  by_contra negative
  rw [account.nonneg fd (Int.not_le.mp negative)] at refers
  cases refers

theorem RawSocket.fds_of_nonneg {socket : RawSocket} (nonneg : 0 ≤ socket.socketFd) :
    socket.fds = [socket.socketFd] :=
  if_neg (Int.not_lt.mpr nonneg)

/-- Dropping a stream closes its descriptor, if it has one. -/
theorem RawSocket.drop_eq (nonneg : ∀ fd < 0, table fd = none) (socket : RawSocket) :
    socket.drop table = table.closeAll socket.fds := by
  rw [drop, fds]
  split
  · next negative => exact Table.close_of_none (nonneg _ negative)
  · rfl

theorem OutputStream.drop_eq (nonneg : ∀ fd < 0, table fd = none) (stream : OutputStream) :
    stream.drop table = table.closeAll stream.fds := by
  cases stream with
  | stdout | tcp | unix => rfl
  | rawSocket socket => exact socket.drop_eq nonneg

theorem InputStream.drop_eq (nonneg : ∀ fd < 0, table fd = none) (stream : InputStream) :
    stream.drop table = table.closeAll stream.fds := by
  cases stream with
  | stdin | tcp | unix => rfl
  | rawSocket reader => exact reader.socket.drop_eq nonneg

/-- Dropping a stream leaves other descriptors alone. -/
theorem RawSocket.drop_of_not_mem {socket : RawSocket} {fd : RawFd} (nonneg : 0 ≤ fd)
    (outside : fd ∉ socket.fds) : socket.drop table fd = table fd := by
  apply Table.close_of_ne
  intro same
  rw [fds_of_nonneg (same ▸ nonneg)] at outside
  exact outside (List.mem_singleton.mpr same)

theorem OutputStream.drop_of_not_mem {stream : OutputStream} {fd : RawFd} (nonneg : 0 ≤ fd)
    (outside : fd ∉ stream.fds) : stream.drop table fd = table fd := by
  cases stream with
  | stdout => rfl
  | tcp other | unix other => exact Table.close_of_ne (List.ne_of_not_mem_cons outside)
  | rawSocket socket => exact socket.drop_of_not_mem nonneg outside

theorem InputStream.drop_of_not_mem {stream : InputStream} {fd : RawFd} (nonneg : 0 ≤ fd)
    (outside : fd ∉ stream.fds) : stream.drop table fd = table fd := by
  cases stream with
  | stdin => rfl
  | tcp other | unix other => exact Table.close_of_ne (List.ne_of_not_mem_cons outside)
  | rawSocket reader => exact reader.socket.drop_of_not_mem nonneg outside

/-! ## What each function opens -/

theorem RawSocket.length_fds_le (socket : RawSocket) : socket.fds.length ≤ 1 := by
  rw [fds]
  split <;> simp

theorem OutputStream.length_fds_le (stream : OutputStream) : stream.fds.length ≤ 1 := by
  cases stream with
  | stdout => exact Nat.zero_le 1
  | tcp | unix => exact Nat.le_refl 1
  | rawSocket socket => exact socket.length_fds_le

theorem InputStream.length_fds_le (stream : InputStream) : stream.fds.length ≤ 1 := by
  cases stream with
  | stdin => exact Nat.zero_le 1
  | tcp | unix => exact Nat.le_refl 1
  | rawSocket reader => exact reader.socket.length_fds_le

variable {table' : Descriptors}

theorem openWith_ok {α : Type} {stream : RawFd → α} {call : Except IoError (RawFd × Description)}
    {value : α} (fresh : ∀ {opened}, call = .ok opened → Fresh table opened)
    (opens : openWith stream call table = (.ok value, table')) :
    ∃ fd, value = stream fd ∧ Opened table [fd] table' := by
  cases call with
  | error error => cases opens
  | ok opened =>
    cases opens
    exact ⟨opened.1, rfl, .socket (fresh rfl)⟩

theorem openWith_error {α : Type} {stream : RawFd → α}
    {call : Except IoError (RawFd × Description)} {error : IoError}
    (opens : openWith stream call table = (.error error, table')) : table' = table := by
  cases call with
  | error error =>
    cases opens
    rfl
  | ok opened => cases opens

theorem RawSocket.new_ok {interfaceName : List Char} {socket : RawSocket}
    (sound : kernel.Sound table) (makes : new kernel interfaceName table = (.ok socket, table')) :
    Opened table [socket.socketFd] table' ∧ 0 ≤ socket.socketFd := by
  rw [new] at makes
  split at makes
  · cases makes
  · next socketFd description answer =>
    split at makes
    · cases makes
    · split at makes
      · cases makes
      · cases makes
        have fresh := sound.socket answer
        exact ⟨.socket fresh, fresh.nonneg⟩

/-- A socket for which there is no interface is left open. -/
theorem RawSocket.new_error {interfaceName : List Char} {error : IoError}
    (sound : kernel.Sound table)
    (makes : new kernel interfaceName table = (.error error, table')) :
    ∃ leaked, Opened table leaked table' := by
  rw [new] at makes
  split at makes
  · cases makes
    exact ⟨[], .nothing⟩
  · next socketFd description answer =>
    split at makes
    · cases makes
      exact ⟨_, .socket (sound.socket answer)⟩
    · split at makes
      · cases makes
        exact ⟨_, .socket (sound.socket answer)⟩
      · cases makes

theorem RawSocket.bind_ok {socket : RawSocket} {reader : RawSocketReader}
    (binds : bind kernel socket table = (.ok reader, table')) :
    reader.socket = socket ∧ table' = table := by
  rw [bind] at binds
  split at binds
  · cases binds
  · split at binds
    · cases binds
    · cases binds
      exact ⟨rfl, rfl⟩

theorem RawSocket.bind_error {socket : RawSocket} {error : IoError}
    (binds : bind kernel socket table = (.error error, table')) : table' = socket.drop table := by
  rw [bind] at binds
  split at binds
  · cases binds
    rfl
  · split at binds
    · cases binds
      rfl
    · cases binds

theorem OutputStream.fromUri_ok {uri : List Char} {stream : OutputStream}
    (sound : kernel.Sound table) (makes : fromUri kernel uri table = (.ok stream, table')) :
    Opened table stream.fds table' := by
  rw [fromUri] at makes
  split at makes
  · cases makes
    exact .nothing
  split at makes
  · obtain ⟨fd, rfl, opened⟩ := openWith_ok sound.tcpConnect makes
    exact opened
  split at makes
  · obtain ⟨fd, rfl, opened⟩ := openWith_ok sound.unixConnect makes
    exact opened
  split at makes
  · split at makes
    · cases makes
    · next socket _ new =>
      cases makes
      obtain ⟨opened, nonneg⟩ := RawSocket.new_ok sound new
      rw [fds, RawSocket.fds_of_nonneg nonneg]
      exact opened
  · cases makes

theorem Listener.fromUri_ok {uri : List Char} {listener : Listener}
    (sound : kernel.Sound table) (makes : fromUri kernel uri table = (.ok listener, table')) :
    Opened table listener.fds table' := by
  rw [fromUri] at makes
  split at makes
  · cases makes
    exact .nothing
  split at makes
  · obtain ⟨fd, rfl, opened⟩ := openWith_ok sound.tcpListen makes
    exact opened
  split at makes
  · split at makes
    · split at makes
      · obtain ⟨fd, rfl, opened⟩ := openWith_ok sound.unixListen makes
        exact opened
      · cases makes
    · obtain ⟨fd, rfl, opened⟩ := openWith_ok sound.unixListen makes
      exact opened
  split at makes
  · cases makes
    exact .nothing
  · cases makes

/-- Only `-` stands for stdin. -/
theorem Listener.fromUri_stdin {uri : List Char} {listener : Listener}
    (makes : fromUri kernel uri table = (.ok listener, table')) :
    uri = ['-'] ∧ listener = .stdin false ∨
      uri ≠ ['-'] ∧ ∀ isClosed, listener ≠ .stdin isClosed := by
  have opens : ∀ {stream : RawFd → Listener} {call : Except IoError (RawFd × Description)},
      (∀ fd isClosed, stream fd ≠ .stdin isClosed) →
      openWith stream call table = (.ok listener, table') →
        ∀ isClosed, listener ≠ .stdin isClosed := by
    intro stream call other opens
    cases call with
    | error error => cases opens
    | ok opened =>
      cases opens
      exact other opened.1
  rw [fromUri] at makes
  split at makes
  · next same =>
    cases makes
    exact Or.inl ⟨same, rfl⟩
  · next different =>
    refine Or.inr ⟨different, ?_⟩
    split at makes
    · exact opens (by simp) makes
    split at makes
    · split at makes
      · split at makes
        · exact opens (by simp) makes
        · cases makes
      · exact opens (by simp) makes
    split at makes
    · cases makes
      simp
    · cases makes

theorem OutputStream.tryClone_ok {stream clone : OutputStream} (sound : kernel.Sound table)
    (nonneg : ∀ fd < 0, table fd = none)
    (clones : stream.tryClone kernel table = (.ok clone, table')) :
    Cloned table stream.fds clone.fds table' := by
  have copies : ∀ {fd copied : RawFd}, kernel.dup fd = .ok copied →
      Cloned table [fd] [copied] (duplicate table fd copied) := by
    intro fd copied answer
    obtain ⟨copiedNonneg, unused, description, refers⟩ := sound.dup answer
    rw [duplicate, refers]
    exact .duplicate rfl refers copiedNonneg unused
  cases stream with
  | stdout =>
    cases clones
    exact .nothing
  | tcp fd | unix fd =>
    rw [tryClone, cloneWith] at clones
    split at clones
    · cases clones
    · next copied answer =>
      cases clones
      exact copies answer
  | rawSocket socket =>
    cases answer : kernel.dup socket.socketFd with
    | error code =>
      simp only [tryClone, RawSocket.clone, answer] at clones
      cases clones
      exact .nothing
    | ok copied =>
      simp only [tryClone, RawSocket.clone, answer] at clones
      cases clones
      obtain ⟨copiedNonneg, unused, description, refers⟩ := sound.dup answer
      have socketNonneg : 0 ≤ socket.socketFd := by
        by_contra negative
        rw [nonneg _ (Int.not_le.mp negative)] at refers
        cases refers
      rw [fds, fds, RawSocket.fds_of_nonneg socketNonneg, RawSocket.fds_of_nonneg copiedNonneg]
      exact copies answer

/-! ## The connections of a listener -/

theorem Listener.next_none {listener later : Listener}
    (ends : listener.next kernel table = (none, later, table')) :
    listener = .stdin true ∧ later = .stdin true ∧ table' = table := by
  cases listener with
  | stdin isClosed =>
    rw [next] at ends
    split at ends
    · next closed =>
      cases ends
      rw [closed]
      exact ⟨rfl, rfl, rfl⟩
    · cases ends
  | tcp fd | unix fd => cases ends
  | rawSocket interfaceName =>
    rw [next] at ends
    split at ends
    · cases ends
    · split at ends
      · cases ends
      · cases ends

/-- Stdin is returned once, and every other listener stays as it is. -/
theorem Listener.next_ok {listener later : Listener} {input : InputStream}
    (sound : kernel.Sound table)
    (accepts : listener.next kernel table = (some (.ok input), later, table')) :
    Opened table input.fds table' ∧ (listener = .stdin false ∧ later = .stdin true ∨
      later = listener ∧ ∀ isClosed, listener ≠ .stdin isClosed) := by
  cases listener with
  | stdin isClosed =>
    rw [next] at accepts
    split at accepts
    · cases accepts
    · next isOpen =>
      cases accepts
      rw [Bool.not_eq_true] at isOpen
      exact ⟨.nothing, Or.inl ⟨by rw [isOpen], rfl⟩⟩
  | tcp fd | unix fd =>
    simp only [next, Prod.mk.injEq, Option.some.injEq] at accepts
    obtain ⟨opens, rfl, same⟩ := accepts
    obtain ⟨accepted, rfl, opened⟩ := openWith_ok sound.accept (Prod.ext opens same)
    exact ⟨opened, Or.inr ⟨rfl, by simp⟩⟩
  | rawSocket interfaceName =>
    rw [next] at accepts
    split at accepts
    · cases accepts
    · next socket _ new =>
      obtain ⟨opened, nonneg⟩ := RawSocket.new_ok sound new
      split at accepts
      · cases accepts
      · next reader _ binds =>
        cases accepts
        obtain ⟨rfl, rfl⟩ := RawSocket.bind_ok binds
        rw [InputStream.fds, RawSocket.fds_of_nonneg nonneg]
        exact ⟨opened, Or.inr ⟨rfl, by simp⟩⟩

/-- What a connection that cannot be accepted leaves open. -/
theorem Listener.next_error {listener later : Listener} {error : IoError}
    (sound : kernel.Sound table)
    (fails : listener.next kernel table = (some (.error error), later, table')) :
    ∃ leaked, Opened table leaked table' ∧ later = listener ∧
      (leaked ≠ [] → ∃ interfaceName, listener = .rawSocket interfaceName) := by
  cases listener with
  | stdin isClosed =>
    rw [next] at fails
    split at fails
    · cases fails
    · cases fails
  | tcp fd | unix fd =>
    simp only [next, Prod.mk.injEq, Option.some.injEq] at fails
    obtain ⟨opens, rfl, same⟩ := fails
    rw [openWith_error (Prod.ext opens same)]
    exact ⟨[], .nothing, rfl, by simp⟩
  | rawSocket interfaceName =>
    rw [next] at fails
    split at fails
    · next _ _ new =>
      cases fails
      obtain ⟨leaked, opened⟩ := RawSocket.new_error sound new
      exact ⟨leaked, opened, rfl, fun _ => ⟨interfaceName, rfl⟩⟩
    · next socket _ new =>
      obtain ⟨opened, nonneg⟩ := RawSocket.new_ok sound new
      split at fails
      · next binds =>
        cases fails
        -- the socket is dropped again
        rw [RawSocket.bind_error binds, RawSocket.drop, opened.close]
        exact ⟨[], .nothing, rfl, by simp⟩
      · cases fails

end GarudaCodec.Core
