import ConfigTree.Schema.Basic

/-!
# A network device

The schema of a network device: its interfaces, its components and the settings of its system, among
them the controllers that it connects to.
-/

namespace ConfigTree.Schema.NetworkDevice

/-- The controllers of a device and how it behaves towards them. -/
def openflow : Node :=
  .container (some "openconfig-openflow") [
    ("agent", .container none [
      ("config", .container none [
        ("backoff-interval", .leaf none (.uint 32)),
        ("datapath-id", .leaf none .string),
        ("failure-mode", .leaf none (.enumeration ["SECURE", "STANDALONE"])),
        ("inactivity-probe", .leaf none (.uint 32)),
        ("max-backoff", .leaf none (.uint 32))])]),
    ("controllers", .container none [
      ("controller", .list none ["name"] [
        ("config", .container none [
          ("name", .leaf none .string)]),
        ("connections", .container none [
          ("connection", .list none ["aux-id"] [
            ("aux-id", .leaf none (.uint 8)),
            ("config", .container none [
              ("address", .leaf none .string),
              ("aux-id", .leaf none (.uint 8)),
              ("port", .leaf none (.uint 16)),
              ("priority", .leaf none (.uint 8)),
              ("source-interface", .leaf none .string),
              ("transport", .leaf none (.enumeration ["TCP", "TLS"]))])])]),
        ("name", .leaf none .string)])])]

def system : Node :=
  .container (some "openconfig-system") [
    ("clock", .container none [
      ("config", .container none [
        ("timezone-name", .leaf none .string)])]),
    ("config", .container none [
      ("domain-name", .leaf none .string),
      ("hostname", .leaf none .string),
      ("login-banner", .leaf none .string),
      ("motd-banner", .leaf none .string)]),
    ("dns", .container none [
      ("config", .container none [
        ("search", .leafList none .string)])]),
    ("openflow", openflow),
    ("state", .container none [
      ("boot-time", .leaf none (.uint 64)),
      ("current-datetime", .leaf none .string)])]

def components : Node :=
  .container (some "openconfig-platform") [
    ("component", .list none ["name"] [
      ("config", .container none [
        ("name", .leaf none .string)]),
      ("name", .leaf none .string),
      ("state", .container none [
        ("description", .leaf none .string),
        ("temperature", .leaf none .decimal)])])]

def interfaces : Node :=
  .container (some "openconfig-interfaces") [
    ("interface", .list none ["name"] [
      ("config", .container none [
        ("description", .leaf none .string),
        ("enabled", .leaf none .bool),
        ("mtu", .leaf none (.uint 16)),
        ("name", .leaf none .string)]),
      ("name", .leaf none .string)])]

/-- Who publishes the modules. -/
def publisher : String := "OpenConfig working group"

end NetworkDevice

open NetworkDevice in
/-- The schema of a network device. -/
def networkDevice : Schema where
  models := [⟨"openconfig-interfaces", publisher, "2.0.0"⟩,
    ⟨"openconfig-openflow", publisher, "0.1.0"⟩,
    ⟨"openconfig-platform", publisher, "0.5.0"⟩,
    ⟨"openconfig-system", publisher, "0.2.0"⟩]
  root := .container none [
    ("components", components),
    ("interfaces", interfaces),
    ("system", system)]

end ConfigTree.Schema
