/-
  OverlayCensus — the catalog of devices.

  Every kind of device reports a fixed list of metrics.  `DeviceKind.all` is the
  catalog; the position of a kind in it is its place in a device string.
-/

namespace OverlayCensus

/-- The kinds of devices, in the order of the catalog. -/
inductive DeviceKind where
  | airPollutionMonitor
  | airVent
  | clock
  | doorLock
  | doorSensor
  | dryer
  | lightSwitch
  | microwave
  | outlet
  | powerMeter
  | refrigerator
  | streetLight
  | thermometer
  | thermostat
  | tv
  | washMachine
  | watch
  | waterLeakSensor
  | windowSensor
deriving DecidableEq, Repr

namespace DeviceKind

/-- The catalog. -/
def all : Vector DeviceKind 19 :=
  #v[airPollutionMonitor, airVent, clock, doorLock, doorSensor, dryer, lightSwitch, microwave,
     outlet, powerMeter, refrigerator, streetLight, thermometer, thermostat, tv, washMachine,
     watch, waterLeakSensor, windowSensor]

/-- The name of a kind. -/
def name : DeviceKind → String
  | airPollutionMonitor => "AirPollutionMonitor"
  | airVent => "AirVent"
  | clock => "Clock"
  | doorLock => "DoorLock"
  | doorSensor => "DoorSensor"
  | dryer => "Dryer"
  | lightSwitch => "LightSwitch"
  | microwave => "Microwave"
  | outlet => "Outlet"
  | powerMeter => "PowerMeter"
  | refrigerator => "Refrigerator"
  | streetLight => "StreetLight"
  | thermometer => "Thermometer"
  | thermostat => "Thermostat"
  | tv => "Tv"
  | washMachine => "WashMachine"
  | watch => "Watch"
  | waterLeakSensor => "WaterLeakSensor"
  | windowSensor => "WindowSensor"

/-- The metrics that a device of a kind reports. -/
def metrics : DeviceKind → List String
  | airPollutionMonitor => ["POWER_CONSUMPTION", "POWER_STATE", "AIR_QUALITY"]
  | airVent =>
    ["POWER_CONSUMPTION", "POWER_STATE", "AIR_QUALITY", "TEMPERATURE", "THROTTLE_STATE"]
  | clock =>
    ["POWER_CONSUMPTION", "POWER_STATE", "BATTERY_PERCENTAGE", "CURRENT_TIME",
     "TIME_SINCE_LAST_SYNC"]
  | doorLock => ["POWER_CONSUMPTION", "POWER_STATE", "LOCK_STATE"]
  | doorSensor =>
    ["POWER_CONSUMPTION", "POWER_STATE", "INSIDE_TEMPERATURE", "TEMPERATURE", "OPEN_STATE"]
  | dryer => ["POWER_CONSUMPTION", "POWER_STATE", "CURRENT_CYCLE_STEP"]
  | lightSwitch => ["POWER_CONSUMPTION", "LIGHT_STATUS"]
  | microwave => ["POWER_CONSUMPTION", "POWER_STATE"]
  | outlet => ["POWER_CONSUMPTION", "POWER_STATE", "TEMPERATURE"]
  | powerMeter => ["POWER_CONSUMPTION", "HOUSE_POWER_STATUS"]
  | refrigerator =>
    ["POWER_CONSUMPTION", "POWER_STATE", "TEMPERATURE", "FRIDGE_TEMPERATURE",
     "FREEZER_TEMPERATURE", "ICE_LEVEL"]
  | streetLight => ["POWER_CONSUMPTION", "LIGHT_STATUS"]
  | thermometer =>
    ["POWER_CONSUMPTION", "POWER_STATE", "RECORD_HIGH", "TEMPERATURE", "RECORD_LOW"]
  | thermostat =>
    ["POWER_CONSUMPTION", "POWER_STATE", "SET_TEMPERATURE", "TEMPERATURE",
     "TIME_TO_NEXT_TEMPERATURE_CHANGE"]
  | tv =>
    ["POWER_CONSUMPTION", "POWER_STATE", "CPU_USAGE", "MEMORY_USAGE", "NETFLIX", "AMAZON_PRIME"]
  | washMachine => ["POWER_CONSUMPTION", "POWER_STATE", "CURRENT_CYCLE_STEP"]
  | watch =>
    ["POWER_CONSUMPTION", "POWER_STATE", "CPU_USAGE", "MEMORY_USAGE", "BATTERY_PERCENTAGE",
     "HEART_RATE"]
  | waterLeakSensor => ["POWER_CONSUMPTION", "POWER_STATE", "CURRENT_LEAK"]
  | windowSensor => ["POWER_CONSUMPTION", "INSIDE_TEMPERATURE", "TEMPERATURE", "OPEN_STATE"]

/-- Whether devices of a kind report a metric. -/
def supports (k : DeviceKind) (metric : String) : Bool :=
  k.metrics.contains metric

end DeviceKind

end OverlayCensus
