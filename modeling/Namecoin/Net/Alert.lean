import Namecoin.Chain.Migrate
import Namecoin.Chain.Proxy
import Namecoin.Data.Codec
import Namecoin.Node.Pool

namespace Namecoin

open Reading

def pszSubVer : StdString := str ""

def getAlertPubkey1 : String :=
  "04ba207043c1575208f08ea6ac27ed2aedd4f84e70b874db129acb08e6109a3bbb7c479ae22565973ebf0ac0391514511a22cb9345bdb772be20cfbd38be578b0c"

def getAlertPubkey2 : String :=
  "04fc4366270096c7e40adb8c3fcfbff12335f3079e5e7905bce6b1539614ae057ee1e61a25abdae4a7a2368505db3541cd81636af3f7c7afe8591ebc85b2a1acdd"

-- setPubKey and verify are those of CKey; GetAdjustedTime is the nNow of node.
structure NetEnv where
  node : NodeEnv
  setPubKey : VchType → Bool
  verify : VchType → Uint256 → VchType → Bool
  nTime : Int
  nSendBufferSize : Nat

structure CUnsignedAlert where
  nVersion : Int
  nRelayUntil : Int
  nExpiration : Int
  nID : Int
  nCancel : Int
  setCancel : Finset Int
  nMinVer : Int
  nMaxVer : Int
  setSubVer : Finset StdString
  nPriority : Int
  strComment : StdString
  strStatusBar : StdString
  strReserved : StdString
deriving DecidableEq

structure CAlert extends CUnsignedAlert where
  vchMsg : VchType
  vchSig : VchType
deriving DecidableEq

def CUnsignedAlert.unserialize : Reader UInt8 CUnsignedAlert := do
  let nVersion ← readInt 4
  let nRelayUntil ← readInt 8
  let nExpiration ← readInt 8
  let nID ← readInt 4
  let nCancel ← readInt 4
  let setCancel ← readVector (readInt 4)
  let nMinVer ← readInt 4
  let nMaxVer ← readInt 4
  let setSubVer ← readVector readBytes
  let nPriority ← readInt 4
  let strComment ← readBytes
  let strStatusBar ← readBytes
  let strReserved ← readBytes
  pure ⟨nVersion, nRelayUntil, nExpiration, nID, nCancel, setCancel.toFinset, nMinVer, nMaxVer,
    setSubVer.toFinset, nPriority, strComment, strStatusBar, strReserved⟩

namespace CAlert

def getHash (env : Env) (a : CAlert) : Uint256 := env.hash (serBytes a.vchMsg ++ serBytes a.vchSig)

def isInEffect (now : Int) (a : CAlert) : Bool := decide (now < a.nExpiration)

def revokes (a alert : CAlert) : Bool :=
  decide (alert.nID ≤ a.nCancel) || decide (alert.nID ∈ a.setCancel)

def cancels (now : Int) (a alert : CAlert) : Bool := a.isInEffect now && a.revokes alert

def appliesTo (now : Int) (a : CAlert) (nVersion : Int) (strSubVer : StdString) : Bool :=
  a.isInEffect now && decide (a.nMinVer ≤ nVersion) && decide (nVersion ≤ a.nMaxVer) &&
    (decide (a.setSubVer = ∅) || decide (strSubVer ∈ a.setSubVer))

def appliesToMe (now : Int) (a : CAlert) : Bool := a.appliesTo now version pszSubVer

-- A message that cannot be read throws, and the alert goes no further.
def checkSignature (c : NetEnv) (vchMsg vchSig : VchType) : Option CAlert :=
  let key1 := parseHex getAlertPubkey1.toList
  let key2 := parseHex getAlertPubkey2.toList
  if !c.setPubKey key1 then none
  else if !c.setPubKey key2 then none
  else
    let hash := c.node.env.hash vchMsg
    if !c.verify key1 hash vchSig && !c.verify key2 hash vchSig then none
    else (CUnsignedAlert.unserialize vchMsg).map fun r => ⟨r.1, vchMsg, vchSig⟩

end CAlert

def insertAlert (hash : Uint256) (a : CAlert) :
    List (Uint256 × CAlert) → List (Uint256 × CAlert)
  | [] => [(hash, a)]
  | item :: rest =>
    if hash < item.1 then (hash, a) :: item :: rest
    else if hash = item.1 then item :: rest
    else item :: insertAlert hash a rest

def keepsAlert (now : Int) (a : CAlert) (item : Uint256 × CAlert) : Bool :=
  !a.cancels now item.2 && item.2.isInEffect now

def CAlert.processAlert (c : NetEnv) (vchMsg vchSig : VchType)
    (mapAlerts : List (Uint256 × CAlert)) : Option CAlert × List (Uint256 × CAlert) :=
  match CAlert.checkSignature c vchMsg vchSig with
  | none => (none, mapAlerts)
  | some a =>
    if !a.isInEffect c.node.nNow then (none, mapAlerts)
    else
      let kept := mapAlerts.filter (keepsAlert c.node.nNow a)
      if kept.any fun item => item.2.cancels c.node.nNow a then (none, kept)
      else (some a, insertAlert (a.getHash c.node.env) a kept)

end Namecoin
